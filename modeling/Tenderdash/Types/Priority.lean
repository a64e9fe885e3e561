import Tenderdash.Types.ValidatorSet
import Tenderdash.Lib.Except
import Tenderdash.Lib.Int64
import Tenderdash.Lib.Slice

/-!
# Proposer priorities and change sets

`types/validator_set.go` as it keeps proposer priorities: `IncrementProposerPriority`
with its rescaling, centering and rounds, and `updateWithChangeSet`, which checks,
applies and re-centers a change set, with the constructors `NewValidatorSet` and
`NewValidatorSetWithLocalNodeProTxHash` built on it.

Priorities, voting powers and totals are Go `int64`s, integers here.  Where the code's
arithmetic can leave the range it wraps (`I64.wrap`); `safeAddClip` and `safeSubClip`
saturate as the source writes them.  The `big.Int` division of the average is
Euclidean, Lean's `/` on `ℤ`; `int64` division truncates, `Int.tdiv`.

Only the two saturating operations can clip a priority.  The functions that use them
take them as a parameter (`PriorityArith`): the code runs with `clipping`, and `exact`
runs the same code with exact integer arithmetic, so that "no addition ever clips"
is an equation between the two.

A `*Validator` pointer into `Validators` is the validator with its index.  The proposer
is the value of the validator `Proposer` points to, which `IncrementProposerPriority` and
`GetProposer` take from `Validators`.  `updateWithChangeSet` then rescales and centers that
validator in place unless an update replaced it or a removal dropped it
(`proposerAfterChanges`); a `Copy` of the set, whose `Proposer` points into the original's
validators, is not modelled.  The
unexported `totalVotingPower` cache is a field, which `TotalVotingPower()` fills when it
is zero.  Go's `sort.Sort` is not stable, but every order it sorts by here is a strict
total order on validators of distinct `ProTxHash`es, on which all sorts agree; the
model uses `List.mergeSort`.  The `%v` renderings of validators in error texts are
left out.
-/

namespace Tenderdash

/-- `DefaultDashVotingPower`. -/
def defaultDashVotingPower : ℤ := 100

/-- `PriorityWindowSizeFactor`. -/
def priorityWindowSizeFactor : ℤ := 2

/-- `ErrTotalVotingPowerOverflow`. -/
def errTotalVotingPowerOverflow : String :=
  s!"total voting power of resulting valset exceeds max {maxTotalVotingPower}"

/-- `%X` of a byte slice. -/
def hexUpper (b : Bytes) : String :=
  let digit (k : ℕ) : Char := if k < 10 then Char.ofNat (48 + k) else Char.ofNat (55 + k)
  String.join (b.map fun x ↦ String.ofList [digit (x.toNat / 16), digit (x.toNat % 16)])

/-! ## Saturating arithmetic -/

/-- `safeAdd`: the sum, and whether it overflows. -/
def safeAdd (a b : ℤ) : ℤ × Bool :=
  if b > 0 ∧ a > I64.maxValue - b then (-1, true)
  else if b < 0 ∧ a < I64.minValue - b then (-1, true)
  else (a + b, false)

/-- `safeSub`: the difference, and whether it overflows. -/
def safeSub (a b : ℤ) : ℤ × Bool :=
  if b > 0 ∧ a < I64.minValue + b then (-1, true)
  else if b < 0 ∧ a > I64.maxValue + b then (-1, true)
  else (a - b, false)

/-- `safeAddClip`. -/
def safeAddClip (a b : ℤ) : ℤ :=
  let (c, overflow) := safeAdd a b
  if overflow then (if b < 0 then I64.minValue else I64.maxValue) else c

/-- `safeSubClip`. -/
def safeSubClip (a b : ℤ) : ℤ :=
  let (c, overflow) := safeSub a b
  if overflow then (if b > 0 then I64.minValue else I64.maxValue) else c

theorem safeAddClip_of_inRange {a b : ℤ} (h : I64.InRange (a + b)) : safeAddClip a b = a + b := by
  unfold I64.InRange at h
  have h₁ : ¬ (b > 0 ∧ a > I64.maxValue - b) := by omega
  have h₂ : ¬ (b < 0 ∧ a < I64.minValue - b) := by omega
  simp [safeAddClip, safeAdd, h₁, h₂]

theorem safeSubClip_of_inRange {a b : ℤ} (h : I64.InRange (a - b)) : safeSubClip a b = a - b := by
  unfold I64.InRange at h
  have h₁ : ¬ (b > 0 ∧ a < I64.minValue + b) := by omega
  have h₂ : ¬ (b < 0 ∧ a > I64.maxValue + b) := by omega
  simp [safeSubClip, safeSub, h₁, h₂]

/-- The additions and subtractions the priority code makes. -/
structure PriorityArith where
  add : ℤ → ℤ → ℤ
  sub : ℤ → ℤ → ℤ

namespace PriorityArith

/-- The code's: `safeAddClip` and `safeSubClip`. -/
def clipping : PriorityArith := ⟨safeAddClip, safeSubClip⟩

/-- Exact integer arithmetic. -/
def exact : PriorityArith := ⟨(· + ·), (· - ·)⟩

/-- The operations are exact wherever the exact result is an `int64`. -/
structure ExactInRange (ar : PriorityArith) : Prop where
  add : ∀ a b, I64.InRange (a + b) → ar.add a b = a + b
  sub : ∀ a b, I64.InRange (a - b) → ar.sub a b = a - b

theorem clipping_exactInRange : clipping.ExactInRange :=
  ⟨fun _ _ h ↦ safeAddClip_of_inRange h, fun _ _ h ↦ safeSubClip_of_inRange h⟩

theorem exact_exactInRange : exact.ExactInRange := ⟨fun _ _ _ ↦ rfl, fun _ _ _ ↦ rfl⟩

end PriorityArith

/-! ## Validators and sets with priorities -/

/-- `types.Validator`, with the fields the validator-set code reads; the public key is an
interface, `none` when nil. -/
structure PriorityValidator where
  proTxHash : Bytes
  pubKey : Option Bytes
  votingPower : ℤ
  proposerPriority : ℤ
deriving DecidableEq, Repr

/-- `types.ValidatorSet` with its proposer, the priorities of its validators and the cached
total. -/
structure PrioritySet where
  validators : List PriorityValidator
  proposer : Option PriorityValidator
  thresholdPublicKey : Option Bytes
  quorumHash : Option Bytes
  quorumType : ℕ
  hasPublicKeys : Bool
  totalVotingPower : ℤ
deriving DecidableEq, Repr

namespace PriorityValidator

/-- The validator as vote counting reads it. -/
def toValidator (v : PriorityValidator) : Validator :=
  ⟨v.proTxHash, v.pubKey.getD [], v.votingPower.toNat⟩

/-- The validator with another priority. -/
def withPriority (v : PriorityValidator) (p : ℤ) : PriorityValidator :=
  { v with proposerPriority := p }

@[simp] theorem proTxHash_withPriority (v : PriorityValidator) (p : ℤ) :
    (v.withPriority p).proTxHash = v.proTxHash := rfl
@[simp] theorem pubKey_withPriority (v : PriorityValidator) (p : ℤ) :
    (v.withPriority p).pubKey = v.pubKey := rfl
@[simp] theorem votingPower_withPriority (v : PriorityValidator) (p : ℤ) :
    (v.withPriority p).votingPower = v.votingPower := rfl
@[simp] theorem proposerPriority_withPriority (v : PriorityValidator) (p : ℤ) :
    (v.withPriority p).proposerPriority = p := rfl

/-- `ValidatorsByVotingPower.Less`: more power first, then the smaller `ProTxHash`. -/
def lessByVotingPower (a b : PriorityValidator) : Bool :=
  if a.votingPower = b.votingPower then decide (a.proTxHash < b.proTxHash)
  else decide (a.votingPower > b.votingPower)

end PriorityValidator

open PriorityValidator

namespace PrioritySet

/-- The set as vote counting reads it. -/
def toValidatorSet (vals : PrioritySet) : ValidatorSet :=
  ⟨vals.validators.map toValidator, vals.thresholdPublicKey.getD [], vals.quorumType,
    vals.quorumHash.getD [], vals.hasPublicKeys⟩

/-- The set with every priority mapped by `f`. -/
def mapPriorities (vals : PrioritySet) (f : ℤ → ℤ) : PrioritySet :=
  { vals with validators := vals.validators.map fun v ↦ v.withPriority (f v.proposerPriority) }

/-- `HasProTxHash`. -/
def hasProTxHash (vals : PrioritySet) (proTxHash : Bytes) : Bool :=
  vals.validators.any (·.proTxHash == proTxHash)

/-- `GetByProTxHash`: the first validator with the hash. -/
def getByProTxHash (vals : PrioritySet) (proTxHash : Bytes) : Option PriorityValidator :=
  vals.validators.find? (·.proTxHash == proTxHash)

/-! ## Totals -/

/-- `updateTotalVotingPower`: the saturating sum of the voting powers, which panics once it
passes `MaxTotalVotingPower`. -/
def updateTotalVotingPower (vals : PrioritySet) : Except String PrioritySet := do
  let sum ← vals.validators.foldlM (fun sum val ↦
    let sum := safeAddClip sum val.votingPower
    if sum > maxTotalVotingPower then
      throw s!"Total voting power should be guarded to not exceed {maxTotalVotingPower}; got: {sum}"
    else pure sum) 0
  pure { vals with totalVotingPower := sum }

/-- `TotalVotingPower`: the cached total, computed first if the cache is zero. -/
def TotalVotingPower (vals : PrioritySet) : Except String (PrioritySet × ℤ) :=
  if vals.totalVotingPower = 0 then do
    let vals ← vals.updateTotalVotingPower
    pure (vals, vals.totalVotingPower)
  else pure (vals, vals.totalVotingPower)

/-! ## Rescaling and centering -/

/-- One iteration of the loop of `computeMaxMinPriorityDiff`, on the largest and the
smallest priority so far. -/
def maxMinStep (acc : ℤ × ℤ) (v : PriorityValidator) : ℤ × ℤ :=
  (if v.proposerPriority > acc.1 then v.proposerPriority else acc.1,
    if v.proposerPriority < acc.2 then v.proposerPriority else acc.2)

/-- `computeMaxMinPriorityDiff`: the distance between the largest and the smallest
priority, in `int64` arithmetic. -/
def computeMaxMinPriorityDiff (vals : PrioritySet) : Except String ℤ :=
  if vals.validators.isEmpty then throw "empty validator set"
  else
    let acc := vals.validators.foldl maxMinStep (I64.minValue, I64.maxValue)
    let diff := I64.wrap (acc.1 - acc.2)
    pure (if diff < 0 then I64.wrap (-1 * diff) else diff)

/-- `RescalePriorities`: divide every priority by the rounded-up ratio of their spread to
`diffMax`, if the spread exceeds it. -/
def rescalePriorities (vals : PrioritySet) (diffMax : ℤ) : Except String PrioritySet :=
  if vals.validators.isEmpty then throw "empty validator set"
  else if diffMax ≤ 0 then pure vals
  else do
    let diff ← vals.computeMaxMinPriorityDiff
    let ratio := (I64.wrap (I64.wrap (diff + diffMax) - 1)).tdiv diffMax
    if diff > diffMax ∧ ratio ≠ 0 then pure (vals.mapPriorities fun p ↦ I64.wrap (p.tdiv ratio))
    else pure vals

/-- `computeAvgProposerPriority`: the floor of the mean priority, as `big.Int` computes it. -/
def computeAvgProposerPriority (vals : PrioritySet) : Except String ℤ :=
  let n : ℤ := vals.validators.length
  let sum := (vals.validators.map (·.proposerPriority)).sum
  let avg := sum / n
  if I64.InRange avg then pure avg
  else throw s!"Cannot represent avg ProposerPriority as an int64 {avg}"

/-- `shiftByAvgProposerPriority`, over the arithmetic `ar`. -/
def shiftByAvgProposerPriorityWith (ar : PriorityArith) (vals : PrioritySet) :
    Except String PrioritySet :=
  if vals.validators.isEmpty then throw "empty validator set"
  else do
    let avg ← vals.computeAvgProposerPriority
    pure (vals.mapPriorities fun p ↦ ar.sub p avg)

/-- `shiftByAvgProposerPriority`. -/
def shiftByAvgProposerPriority (vals : PrioritySet) : Except String PrioritySet :=
  vals.shiftByAvgProposerPriorityWith .clipping

/-! ## Rounds -/

/-- `CompareProposerPriority` on pointers: the one of higher priority, ties to the smaller
`ProTxHash`; the receiver may be nil. -/
def compareProposerPriority : Option (PriorityValidator × ℕ) → PriorityValidator × ℕ →
    Except String (PriorityValidator × ℕ)
  | none, other => pure other
  | some v, other =>
    if v.1.proposerPriority > other.1.proposerPriority then pure v
    else if v.1.proposerPriority < other.1.proposerPriority then pure other
    else if v.1.proTxHash < other.1.proTxHash then pure v
    else if other.1.proTxHash < v.1.proTxHash then pure other
    else throw "Cannot compare identical validators"

/-- The loop of `getValWithMostPriority` from the validator at index `i` on. -/
def mostPriorityFrom : ℕ → Option (PriorityValidator × ℕ) → List PriorityValidator →
    Except String (Option (PriorityValidator × ℕ))
  | _, res, [] => pure res
  | i, res, val :: vals => do
    let res ← compareProposerPriority res (val, i)
    mostPriorityFrom (i + 1) (some res) vals

/-- `getValWithMostPriority`: a pointer to the validator of most priority, nil if there is
none. -/
def getValWithMostPriority (vals : PrioritySet) : Except String (Option (PriorityValidator × ℕ)) :=
  mostPriorityFrom 0 none vals.validators

/-- `incrementProposerPriority`, one round over the arithmetic `ar`: every priority gains its
voting power, and the validator of most priority pays the total. -/
def incrementProposerPriorityWith (ar : PriorityArith) (vals : PrioritySet) :
    Except String (PrioritySet × PriorityValidator) := do
  let vals := { vals with
    validators := vals.validators.map fun (val : PriorityValidator) ↦
      val.withPriority (ar.add val.proposerPriority val.votingPower) }
  let some (mostest, i) ← vals.getValWithMostPriority | throw Slice.nilDereference
  let (vals, tvp) ← vals.TotalVotingPower
  let mostest := mostest.withPriority (ar.sub mostest.proposerPriority tvp)
  pure ({ vals with validators := vals.validators.set i mostest }, mostest)

/-- The loop of `IncrementProposerPriority`: `times` rounds, and the last one's proposer. -/
def incrementLoop (ar : PriorityArith) :
    ℕ → PrioritySet → Option PriorityValidator → Except String (PrioritySet × Option PriorityValidator)
  | 0, vals, proposer => pure (vals, proposer)
  | t + 1, vals, _ => do
    let (vals, proposer) ← vals.incrementProposerPriorityWith ar
    incrementLoop ar t vals (some proposer)

/-- `IncrementProposerPriority`, over the arithmetic `ar`: rescale the priorities to twice the
total power, center them, then run `times` rounds. -/
def IncrementProposerPriorityWith (ar : PriorityArith) (vals : PrioritySet) (times : ℤ) :
    Except String PrioritySet :=
  if vals.validators.isEmpty then throw "empty validator set"
  else if times ≤ 0 then throw "Cannot call IncrementProposerPriority with non-positive times"
  else do
    let (vals, tvp) ← vals.TotalVotingPower
    let vals ← vals.rescalePriorities (I64.wrap (priorityWindowSizeFactor * tvp))
    let vals ← vals.shiftByAvgProposerPriorityWith ar
    let (vals, proposer) ← incrementLoop ar times.toNat vals none
    pure { vals with proposer := proposer }

/-- `IncrementProposerPriority`. -/
def IncrementProposerPriority (vals : PrioritySet) (times : ℤ) : Except String PrioritySet :=
  vals.IncrementProposerPriorityWith .clipping times

/-- `findProposer`: the validator of most priority, ties to the smaller `ProTxHash`, with a
validator of the running proposer's hash not compared.  `CompareProposerPriority` takes no
index here: the pairs carry `0`. -/
def findProposer (vals : PrioritySet) : Except String (Option PriorityValidator) :=
  vals.validators.foldlM (fun proposer val ↦
    if proposer.all fun p ↦ p.proTxHash ≠ val.proTxHash then
      (fun r ↦ some r.1) <$> compareProposerPriority (proposer.map (·, 0)) (val, 0)
    else pure proposer) none

/-- `GetProposer`: nil for a set with no validators, else the cached proposer, found and
cached first if there is none. -/
def getProposer (vals : PrioritySet) : Except String (PrioritySet × Option PriorityValidator) :=
  if vals.validators.isEmpty then pure (vals, none)
  else match vals.proposer with
    | some p => pure (vals, some p)
    | none => do
      let p ← vals.findProposer
      pure ({ vals with proposer := p }, p)

/-! ## Change sets -/

/-- The scan of `processChanges` over changes sorted by `ProTxHash`: a repeated hash, a
negative power or one above `MaxTotalVotingPower` is an error; power zero is a removal. -/
def processChangesLoop : Bytes → List PriorityValidator →
    Except String (List PriorityValidator × List PriorityValidator)
  | _, [] => pure ([], [])
  | prevProTxHash, valUpdate :: changes =>
    if valUpdate.proTxHash = prevProTxHash then throw "duplicate entry"
    else if valUpdate.votingPower < 0 then
      throw s!"voting power can't be negative: {valUpdate.votingPower}"
    else if valUpdate.votingPower > maxTotalVotingPower then
      throw (s!"to prevent clipping/overflow, voting power can't be higher than " ++
        s!"{maxTotalVotingPower}, got {valUpdate.votingPower}")
    else do
      let (updates, removals) ← processChangesLoop valUpdate.proTxHash changes
      if valUpdate.votingPower = 0 then pure (updates, valUpdate :: removals)
      else pure (valUpdate :: updates, removals)

/-- `processChanges`: the updates and the removals of a change set, sorted by `ProTxHash`. -/
def processChanges (origChanges : List PriorityValidator) :
    Except String (List PriorityValidator × List PriorityValidator) :=
  processChangesLoop [] (origChanges.mergeSort fun a b ↦ decide (a.proTxHash ≤ b.proTxHash))

/-- `verifyRemovals`: every removal names a validator of the set; the power they remove. -/
def verifyRemovals (deletes : List PriorityValidator) (vals : PrioritySet) : Except String ℤ := do
  let removedVotingPower ← deletes.foldlM (fun removed valUpdate ↦
    match vals.getByProTxHash valUpdate.proTxHash with
    | none =>
      let hash := hexUpper valUpdate.proTxHash
      throw s!"failed to find validator {hash} to remove"
    | some val => pure (I64.wrap (removed + val.votingPower))) 0
  if deletes.length > vals.validators.length then throw "more deletes than validators"
  pure removedVotingPower

/-- The change of power an update makes to the set. -/
def delta (vals : PrioritySet) (update : PriorityValidator) : ℤ :=
  match vals.getByProTxHash update.proTxHash with
  | some val => I64.wrap (update.votingPower - val.votingPower)
  | none => update.votingPower

/-- `verifyUpdates`: every update has power 0 or 100, and no prefix of the updates, in
increasing order of their change, takes the total past `MaxTotalVotingPower`; the total
after the updates and before the removals.  It reads `TotalVotingPower()`, which may fill
the cache. -/
def verifyUpdates (updates : List PriorityValidator) (vals : PrioritySet) (removedPower : ℤ) :
    Except String (PrioritySet × ℤ) := do
  if updates.any fun val ↦ val.votingPower ≠ 0 ∧ val.votingPower ≠ 100 then
    throw "voting power of a node can only be 0 or 100"
  let updatesCopy := updates.mergeSort fun a b ↦ decide (vals.delta a ≤ vals.delta b)
  let (vals, tvp) ← vals.TotalVotingPower
  let tvpAfterRemovals ← updatesCopy.foldlM (fun tvp upd ↦
    let tvp := I64.wrap (tvp + vals.delta upd)
    if tvp > maxTotalVotingPower then throw errTotalVotingPowerOverflow else pure tvp)
    (I64.wrap (tvp - removedPower))
  pure (vals, I64.wrap (tvpAfterRemovals + removedPower))

/-- `numNewValidators`. -/
def numNewValidators (updates : List PriorityValidator) (vals : PrioritySet) : ℕ :=
  (updates.filter fun valUpdate ↦ !vals.hasProTxHash valUpdate.proTxHash).length

/-- `computeNewPriorities`: a new validator enters at `-1.125` times the total after the
updates; an updated one keeps its priority. -/
def computeNewPriorities (updates : List PriorityValidator) (vals : PrioritySet)
    (updatedTotalVotingPower : ℤ) : List PriorityValidator :=
  updates.map fun valUpdate ↦
    match vals.getByProTxHash valUpdate.proTxHash with
    | none => valUpdate.withPriority
        (I64.wrap (-I64.wrap
          (updatedTotalVotingPower + (updatedTotalVotingPower >>> (3 : ℕ)))))
    | some val => valUpdate.withPriority val.proposerPriority

/-- The merge of `applyUpdates`: both lists sorted by `ProTxHash`, an update replacing the
validator of its hash. -/
def applyUpdatesMerge : List PriorityValidator → List PriorityValidator → List PriorityValidator
  | [], updates => updates
  | existing, [] => existing
  | e :: existing, u :: updates =>
    if e.proTxHash < u.proTxHash then e :: applyUpdatesMerge existing (u :: updates)
    else if e.proTxHash = u.proTxHash then u :: applyUpdatesMerge existing updates
    else u :: applyUpdatesMerge (e :: existing) updates
termination_by existing updates => existing.length + updates.length

/-- `applyUpdates`: sort the set by `ProTxHash` and merge the updates into it. -/
def applyUpdates (vals : PrioritySet) (updates : List PriorityValidator) : PrioritySet :=
  let existing := vals.validators.mergeSort fun a b ↦ decide (a.proTxHash ≤ b.proTxHash)
  { vals with validators := applyUpdatesMerge existing updates }

/-- The loop of `applyRemovals`, writing the kept validators into `merged`, of length `cap`,
from index `i`. -/
def applyRemovalsLoop (cap : ℕ) : ℕ → List PriorityValidator → List PriorityValidator →
    Except String (List PriorityValidator)
  | i, existing, [] =>
    if i + existing.length ≤ cap then pure existing else throw (Slice.indexOutOfRange cap cap)
  | _, [], _ :: _ => throw (Slice.indexOutOfRange 0 0)
  | i, e :: existing, d :: deletes =>
    if e.proTxHash = d.proTxHash then applyRemovalsLoop cap i existing deletes
    else if i < cap then (e :: ·) <$> applyRemovalsLoop cap (i + 1) existing (d :: deletes)
    else throw (Slice.indexOutOfRange i cap)

/-- `applyRemovals`: drop the removed validators from the set, sorted as the removals. -/
def applyRemovals (vals : PrioritySet) (deletes : List PriorityValidator) :
    Except String PrioritySet := do
  let merged ← Slice.make () ((vals.validators.length : ℤ) - deletes.length)
  let validators ← applyRemovalsLoop merged.length 0 vals.validators deletes
  pure { vals with validators := validators }

/-- What the `Proposer` pointer reads after a change set: a validator of `Validators` that no
update replaced and no removal dropped is the same `*Validator`, rescaled and centered in
place; a replaced or dropped one keeps its values. -/
def proposerAfterChanges (proposer : Option PriorityValidator) (updates : List PriorityValidator)
    (validators : List PriorityValidator) : Option PriorityValidator :=
  proposer.map fun p ↦
    if updates.any (·.proTxHash = p.proTxHash) then p
    else (validators.find? (·.proTxHash = p.proTxHash)).getD p

/-- `updateWithChangeSet`, over the arithmetic `ar`. -/
def updateWithChangeSetWith (ar : PriorityArith) (vals : PrioritySet)
    (changes : List PriorityValidator) (allowDeletes : Bool)
    (newThresholdPublicKey newQuorumHash : Option Bytes) : Except String PrioritySet :=
  if changes.isEmpty then pure vals
  else match newThresholdPublicKey, newQuorumHash with
  | none, _ => throw "the new threshold public key can not be nil"
  | _, none => throw "the new quorum hash can not be nil"
  | some key, some quorumHash => do
    let (updates, deletes) ← processChanges changes
    if !allowDeletes && !deletes.isEmpty then
      throw "cannot process validators with voting power 0"
    if numNewValidators updates vals = 0 && vals.validators.length = deletes.length then
      throw "applying the validator changes would result in empty set"
    let removedVotingPower ← verifyRemovals deletes vals
    let (vals, tvpAfterUpdatesBeforeRemovals) ← verifyUpdates updates vals removedVotingPower
    let updates := computeNewPriorities updates vals tvpAfterUpdatesBeforeRemovals
    let vals := vals.applyUpdates updates
    let vals ← vals.applyRemovals deletes
    let vals ← vals.updateTotalVotingPower
    let (vals, tvp) ← vals.TotalVotingPower
    let vals ← vals.rescalePriorities (I64.wrap (priorityWindowSizeFactor * tvp))
    let vals ← vals.shiftByAvgProposerPriorityWith ar
    let vals := { vals with
      validators := vals.validators.mergeSort fun a b ↦ !lessByVotingPower b a }
    pure { vals with
      proposer := proposerAfterChanges vals.proposer updates vals.validators
      thresholdPublicKey := some key
      quorumHash := some quorumHash }

/-- `updateWithChangeSet`. -/
def updateWithChangeSet (vals : PrioritySet) (changes : List PriorityValidator)
    (allowDeletes : Bool) (newThresholdPublicKey newQuorumHash : Option Bytes) :
    Except String PrioritySet :=
  vals.updateWithChangeSetWith .clipping changes allowDeletes newThresholdPublicKey newQuorumHash

/-- `UpdateWithChangeSet`: a change set, deletes allowed. -/
def UpdateWithChangeSet (vals : PrioritySet) (changes : List PriorityValidator)
    (newThresholdPublicKey newQuorumHash : Option Bytes) : Except String PrioritySet :=
  vals.updateWithChangeSet changes true newThresholdPublicKey newQuorumHash

end PrioritySet

open PrioritySet

/-- `NewValidatorSet`: the validators as a change set on the empty set, which panics if
rejected, then one round if there are any. -/
def newValidatorSet (valz : List PriorityValidator) (newThresholdPublicKey : Option Bytes)
    (quorumType : ℕ) (quorumHash : Option Bytes) (hasPublicKeys : Bool) :
    Except String PrioritySet := do
  let vals : PrioritySet :=
    { validators := [], proposer := none, thresholdPublicKey := none, quorumHash := quorumHash,
      quorumType := quorumType, hasPublicKeys := hasPublicKeys, totalVotingPower := 0 }
  let vals ← (vals.updateWithChangeSet valz false newThresholdPublicKey quorumHash).mapError
    fun err ↦ s!"Cannot create validator set: {err}"
  if valz.length > 0 then vals.IncrementProposerPriority 1 else pure vals

/-- `NewValidatorSetWithLocalNodeProTxHash`: the set has the public keys exactly when the
local node is one of its validators. -/
def newValidatorSetWithLocalNodeProTxHash (valz : List PriorityValidator)
    (newThresholdPublicKey : Option Bytes) (quorumType : ℕ) (quorumHash : Option Bytes)
    (localNodeProTxHash : Option Bytes) : Except String PrioritySet := do
  let vals ← newValidatorSet valz newThresholdPublicKey quorumType quorumHash false
  match localNodeProTxHash with
  | some p => if vals.hasProTxHash p then pure { vals with hasPublicKeys := true } else pure vals
  | none => pure vals

end Tenderdash
