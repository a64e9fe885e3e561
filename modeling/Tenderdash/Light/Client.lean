import Tenderdash.Consensus.State
import Mathlib.Data.List.Sort

/-!
# The light client

`light/client.go` with its trusted store `light/store/db/db.go`: the store of
light blocks by height, the primary and witness providers, and the calls that
fetch a light block, verify it and save it.

A provider is any value of a type `P`; what it answers to a request for the
latest light block (height 0, the only height these calls ask for) is the
function `respond`, so a faulty provider is any answer at all.  Go asks the
witnesses concurrently and takes their answers as they arrive; here they are
taken in the order of the witness list.  The database's own errors, the
mutexes, the logger and the clock (`verifyLatest` does not read the time) are
left out.

The only verification mode, `dashCoreVerification`, makes `verifyLightBlock`
call `verifyLatest`, which checks nothing, and then save the block.  So when
the height asked for is not trusted yet, `VerifyLightBlockAtHeight` returns
the primary's latest block, whatever its height and commit, and stores it as
trusted (`verifyLightBlockAtHeight_untrusted`).
-/

namespace Tenderdash.Light

open Consensus (nilDereference)

/-- `types.LightBlock`: the signed header's height, the block and state it
names, its commit, and the validator set. -/
structure LightBlock where
  height : ℤ
  blockID : BlockID
  stateID : StateID
  commit : Commit
  validatorSet : ValidatorSet
deriving DecidableEq, Repr

/-- A light block checked against a trusted validator set: `VerifyCommit` of the
set accepts the block's commit at the height, for the block and state it names. -/
def Checked (c : Crypto) (verifySignatureDigest : Bytes → Bytes → Bytes → Bool) (chainID : Bytes)
    (vals : ValidatorSet) (height : ℤ) (l : LightBlock) : Prop :=
  vals.verifyCommit c verifySignatureDigest chainID l.blockID l.stateID height l.commit = .ok ()

/-- A commit checked at a height is a commit of that height. -/
theorem Checked.commit_height {c : Crypto} {verify : Bytes → Bytes → Bytes → Bool} {chainID : Bytes}
    {vals : ValidatorSet} {height : ℤ} {l : LightBlock} (h : Checked c verify chainID vals height l) :
    l.commit.height = height := by
  unfold Checked ValidatorSet.verifyCommit at h
  by_contra hne
  simp [Ne.symm hne] at h

/-! ## The trusted store -/

/-- `dbs`: the stored light blocks in increasing height, one per height, and
the persisted count `size`, a `uint16`. -/
structure Store where
  blocks : List LightBlock
  size : UInt16
deriving DecidableEq, Repr

/-- `store.ErrLightBlockNotFound`. -/
def errLightBlockNotFound : String := "light block not found"

namespace Store

/-- `LightBlock`: a height that is not positive panics. -/
def lightBlock (s : Store) (height : ℤ) : Except String LightBlock :=
  if height ≤ 0 then throw "negative or zero height"
  else match s.blocks.find? (·.height = height) with
    | some l => pure l
    | none => throw errLightBlockNotFound

/-- `LastLightBlockHeight`: the highest stored height, `-1` for none. -/
def lastLightBlockHeight (s : Store) : ℤ := ((s.blocks.map (·.height)).max?).getD (-1)

/-- `SaveLightBlock`: the block replaces any at its height, and the count goes
up by one whether it did or not. -/
def saveLightBlock (s : Store) (l : LightBlock) : Except String Store :=
  if l.height ≤ 0 then throw "negative or zero height"
  else pure ⟨(s.blocks.filter (·.height ≠ l.height)).orderedInsert (·.height ≤ ·.height) l, s.size + 1⟩

/-- `Prune`: delete the lowest `s.size - size` heights. -/
def prune (s : Store) (size : UInt16) : Store :=
  if s.size ≤ size then s
  else
    let numToPrune := (s.size - size).toNat
    let pruned := min numToPrune s.blocks.length
    ⟨s.blocks.drop numToPrune, s.size - pruned.toUInt16⟩

end Store

/-! ## Providers -/

/-- The errors a provider returns (`light/provider/errors.go`); `other` is any
other error, such as `ErrBadLightBlock`. -/
inductive ProviderError where
  | heightTooHigh
  | lightBlockTooOld
  | lightBlockNotFound
  | noResponse
  | other (msg : String)
deriving DecidableEq, Repr

/-- The error's text. -/
def ProviderError.message : ProviderError → String
  | heightTooHigh => "height requested is too high"
  | lightBlockTooOld => "light block is too old"
  | lightBlockNotFound => "light block not found"
  | noResponse => "client failed to respond"
  | other msg => msg

/-- The errors `findNewPrimary` keeps a witness after. -/
def ProviderError.benign : ProviderError → Bool
  | heightTooHigh | lightBlockTooOld | lightBlockNotFound | noResponse => true
  | other _ => false

/-- What `Provider.LightBlock` returns: a block, which may be nil, and an error. -/
structure Reply where
  block : Option LightBlock
  err : Option ProviderError
deriving DecidableEq, Repr

/-- `light.ErrNoWitnesses`. -/
def errNoWitnesses : String := "no witnesses connected. please reset light client"

/-- The verification mode `dashCoreVerification`. -/
def dashCoreVerification : ℕ := 1

/-- `light.Client`, with providers of type `P`. -/
structure Client (P : Type) where
  verificationMode : ℕ
  store : Store
  latestTrustedBlock : Option LightBlock
  primary : P
  witnesses : List P
  pruningSize : UInt16

/-- The last step of `removeWitnesses`: `w[i] = w[len-1]; w = w[:len-1]`. -/
def swapRemove {P : Type} (ws : List P) (i : ℕ) : List P :=
  match ws.getLast? with
  | none => ws
  | some last => (ws.set i last).dropLast

/-- `removeWitnesses`: drop the witnesses at the indexes, highest first. -/
def removeWitnesses {P : Type} (ws : List P) (indexes : List ℕ) : Except String (List P) :=
  if ws.length ≤ indexes.length then throw errNoWitnesses
  else pure ((indexes.mergeSort (· ≤ ·)).reverse.foldl swapRemove ws)

section Client

variable {P : Type} (respond : P → Reply)

namespace Client

/-- The loop of `findNewPrimary` over the witnesses' answers, with the indexes
of the witnesses to remove and the last error. -/
def findNewPrimaryLoop (c : Client P) (remove : Bool) :
    List (P × ℕ) → List ℕ → Option ProviderError → Except String (Client P × Option LightBlock)
  | [], _, lastError => throw ((lastError.map ProviderError.message).getD "")
  | (w, index) :: rest, toRemove, _ =>
    match (respond w).err with
    | none => do
      -- the old primary goes to the back of the witnesses unless it is removed
      let witnesses := if remove then c.witnesses else c.witnesses ++ [c.primary]
      let witnesses ← removeWitnesses witnesses (toRemove ++ [index])
      pure ({ c with primary := w, witnesses }, (respond w).block)
    | some e =>
      if e.benign then findNewPrimaryLoop c remove rest toRemove (some e)
      else findNewPrimaryLoop c remove rest (toRemove ++ [index]) (some e)

/-- `findNewPrimary`: promote the first witness that answers without an error. -/
def findNewPrimary (c : Client P) (remove : Bool) : Except String (Client P × Option LightBlock) :=
  if c.witnesses.length ≤ 1 then throw errNoWitnesses
  else findNewPrimaryLoop respond c remove c.witnesses.zipIdx [] none

/-- `lightBlockFromPrimary`: the primary's latest light block, or a witness's
if the primary fails. -/
def lightBlockFromPrimary (c : Client P) : Except String (Client P × Option LightBlock) :=
  let r := respond c.primary
  match r.err with
  | none => pure (c, r.block)
  | some .lightBlockTooOld =>
    match c.latestTrustedBlock with
    | none => pure (c, r.block)
    | some latest =>
      match r.block with
      | none => throw nilDereference
      | some l => if l.height < latest.height then findNewPrimary respond c false else pure (c, r.block)
  | some e => findNewPrimary respond c !e.benign

/-- `compareWithLatestHeight`. -/
def compareWithLatestHeight (c : Client P) (height : ℤ) : Except String ℤ :=
  let latestHeight := c.store.lastLightBlockHeight
  if latestHeight = -1 then throw "no headers exist"
  else if height > latestHeight then throw s!"unverified header/valset requested (latest: {latestHeight})"
  else if height = 0 then pure latestHeight
  else if height < 0 then throw "negative height"
  else pure height

/-- `TrustedLightBlock`. -/
def trustedLightBlock (c : Client P) (height : ℤ) : Except String LightBlock := do
  let height ← c.compareWithLatestHeight height
  c.store.lightBlock height

/-- `updateTrustedLightBlock`: save the block, prune, and make it the latest
trusted block if it is higher. -/
def updateTrustedLightBlock (c : Client P) (l : LightBlock) : Except String (Client P) := do
  let store ← c.store.saveLightBlock l
  let store := if c.pruningSize > 0 then store.prune c.pruningSize else store
  let latest := match c.latestTrustedBlock with
    | some b => if l.height > b.height then some l else some b
    | none => some l
  pure { c with store, latestTrustedBlock := latest }

/-- `verifyLatest`. -/
def verifyLatest (_l : LightBlock) : Except String Unit := pure ()

/-- `verifyLightBlock`. -/
def verifyLightBlock (c : Client P) (l : LightBlock) : Except String (Client P) := do
  if c.verificationMode ≠ dashCoreVerification then
    let mode := c.verificationMode
    throw s!"Unknown verification mode: {mode}"
  verifyLatest l
  c.updateTrustedLightBlock l

/-- `VerifyLightBlockAtHeight`.  Go returns the block with the error of
`verifyLightBlock`; a caller reads it only without one. -/
def verifyLightBlockAtHeight (c : Client P) (height : ℤ) : Except String (Client P × LightBlock) := do
  if height ≤ 0 then throw "negative or zero height"
  match c.trustedLightBlock height with
  | .ok l => pure (c, l)
  | .error _ => do
    let (c, l) ← c.lightBlockFromPrimary respond
    -- `verifyLightBlock` reads the block's height
    let some l := l | throw nilDereference
    let c ← c.verifyLightBlock l
    pure (c, l)

end Client

end Client

/-! ## What is returned -/

section Results

variable {P : Type} (respond : P → Reply) {c : Client P}

theorem Store.lightBlock_height {s : Store} {height : ℤ} {l : LightBlock}
    (h : s.lightBlock height = .ok l) : l.height = height := by
  unfold Store.lightBlock at h
  split at h
  · exact absurd h Except.throw_ne_ok
  · split at h
    · rename_i hfind
      cases Except.pure_eq_ok.mp h
      simpa using List.find?_some hfind
    · exact absurd h Except.throw_ne_ok

/-- `verifyLightBlock` in the Dash Core mode is `updateTrustedLightBlock`:
nothing about the block is checked. -/
theorem Client.verifyLightBlock_eq (hmode : c.verificationMode = dashCoreVerification)
    (l : LightBlock) : c.verifyLightBlock l = c.updateTrustedLightBlock l := by
  simp [Client.verifyLightBlock, hmode, Client.verifyLatest, bind, Except.bind, pure, Except.pure]

/-- When the height asked for is not trusted and the primary answers with a
block, `VerifyLightBlockAtHeight` returns that block, whatever its height and
commit, after storing it as trusted with no check. -/
theorem verifyLightBlockAtHeight_untrusted (height : ℤ) (hheight : 0 < height)
    (huntrusted : ∀ l, c.trustedLightBlock height ≠ .ok l)
    (hmode : c.verificationMode = dashCoreVerification) (l : LightBlock)
    (hprimary : respond c.primary = ⟨some l, none⟩) :
    c.verifyLightBlockAtHeight respond height = (fun c' => (c', l)) <$> c.updateTrustedLightBlock l := by
  have hnot : ¬ height ≤ 0 := by omega
  obtain ⟨e, he⟩ : ∃ e, c.trustedLightBlock height = .error e := by
    cases htr : c.trustedLightBlock height with
    | error e => exact ⟨e, rfl⟩
    | ok l' => exact absurd htr (huntrusted l')
  have hfrom : c.lightBlockFromPrimary respond = .ok (c, some l) := by
    simp [Client.lightBlockFromPrimary, hprimary, pure, Except.pure]
  simp only [Client.verifyLightBlockAtHeight, hnot, if_false, he, hfrom, bind, Except.bind,
    Client.verifyLightBlock_eq hmode]
  cases c.updateTrustedLightBlock l <;> rfl

/-- A client trusting a block at height 1 asks for height 5; its primary
answers with a block at height 7 whose commit is for height 7, which no
validator set can have checked at height 5.  It is returned and stored. -/
theorem verifyLightBlockAtHeight_untrusted_at_height_five :
    let hash := List.replicate 32 (1 : UInt8)
    let blockID : BlockID := ⟨some hash, ⟨1, hash⟩⟩
    let vals : ValidatorSet := ⟨[], [], 0, [], true⟩
    let l₁ : LightBlock := ⟨1, blockID, ⟨some []⟩, ⟨1, 0, blockID, ⟨some []⟩, [], [], []⟩, vals⟩
    let l₇ : LightBlock := ⟨7, blockID, ⟨some []⟩, ⟨7, 0, blockID, ⟨some []⟩, [], [], []⟩, vals⟩
    let c : Client Unit := ⟨dashCoreVerification, ⟨[l₁], 1⟩, some l₁, (), [], 1000⟩
    (∀ l, c.trustedLightBlock 5 ≠ .ok l) ∧
      c.verifyLightBlockAtHeight (fun _ => ⟨some l₇, none⟩) 5 =
        .ok (⟨dashCoreVerification, ⟨[l₁, l₇], 2⟩, some l₇, (), [], 1000⟩, l₇) ∧
      l₇.height ≠ 5 ∧ (∀ crypto verify chainID vals', ¬ Checked crypto verify chainID vals' 5 l₇) ∧
      (Store.mk [l₁, l₇] 2).lightBlock 7 = .ok l₇ := by
  intro hash blockID vals l₁ l₇ c
  have hun : ∀ l, c.trustedLightBlock 5 ≠ .ok l := by
    intro l hl
    have hnot : (c.trustedLightBlock 5).toBool = false := by decide
    simp [hl, Except.toBool] at hnot
  refine ⟨hun, ?_, by decide, ?_, by decide⟩
  · rw [verifyLightBlockAtHeight_untrusted (fun _ => ⟨some l₇, none⟩) 5 (by decide) hun rfl l₇ rfl]
    rfl
  · intro crypto verify chainID vals' hchecked
    have := hchecked.commit_height
    simp [l₇] at this

end Results

end Tenderdash.Light
