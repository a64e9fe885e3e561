import Tenderdash.Types.Basic
import Mathlib.Algebra.BigOperators.Fin

/-!
# Validators and validator sets

`types/validator.go` and `types/validator_set.go`, as far as vote counting reads
them: validators by index, their voting powers and the set's total.

Voting powers are `int64` in Go; a validator set holds only validators of
positive power (`processChanges` turns a zero power into a removal and rejects a
negative one), and its total is kept below `MaxTotalVotingPower`, so they are
natural numbers here and no sum of them overflows.  Go's integer division
truncates, which on natural numbers is Lean's division.
-/

namespace Tenderdash

/-- `types.Validator`: the fields that signing and vote counting read. -/
structure Validator where
  proTxHash : Bytes
  pubKey : Bytes
  votingPower : ℕ
deriving DecidableEq, Repr

/-- `MaxTotalVotingPower`, `math.MaxInt64 / 8`. -/
def maxTotalVotingPower : ℕ := (2 ^ 63 - 1) / 8

/-- `types.ValidatorSet`: validators by index, and the quorum that signs for them. -/
structure ValidatorSet where
  validators : List Validator
  thresholdPublicKey : Bytes
  quorumType : ℕ
  quorumHash : Bytes
  hasPublicKeys : Bool
deriving DecidableEq, Repr

namespace ValidatorSet

/-- `Size`. -/
def size (vals : ValidatorSet) : ℕ := vals.validators.length

/-- `GetByIndex`: nothing for an index out of range. -/
def getByIndex (vals : ValidatorSet) (index : ℤ) : Option Validator :=
  if index < 0 then none else vals.validators[index.toNat]?

/-- `GetByProTxHash`: the index and the first validator with the hash. -/
def getByProTxHash (vals : ValidatorSet) (proTxHash : Bytes) : Option (ℕ × Validator) :=
  (vals.validators.findIdx? (·.proTxHash == proTxHash)).bind fun i ↦
    vals.validators[i]?.map ((i, ·))

/-- `HasProTxHash`. -/
def hasProTxHash (vals : ValidatorSet) (proTxHash : Bytes) : Bool :=
  vals.validators.any (·.proTxHash == proTxHash)

/-- `TotalVotingPower`. -/
def totalVotingPower (vals : ValidatorSet) : ℕ := (vals.validators.map (·.votingPower)).sum

/-- The voting power at an index, zero out of range: the weight vote counting
gives a validator index. -/
def powerAt (vals : ValidatorSet) (i : ℕ) : ℕ := (vals.validators[i]?.map (·.votingPower)).getD 0

theorem getByIndex_eq_some {vals : ValidatorSet} {index : ℤ} {val : Validator}
    (h : vals.getByIndex index = some val) :
    0 ≤ index ∧ index.toNat < vals.size ∧ vals.validators[index.toNat]? = some val := by
  unfold getByIndex at h
  split at h
  · cases h
  · refine ⟨by omega, ?_, h⟩
    exact (List.getElem?_eq_some_iff.mp h).1

theorem powerAt_of_getByIndex {vals : ValidatorSet} {index : ℤ} {val : Validator}
    (h : vals.getByIndex index = some val) : vals.powerAt index.toNat = val.votingPower := by
  simp [powerAt, (getByIndex_eq_some h).2.2]

/-- The total is the sum of the powers at the indices of the set. -/
theorem sum_powerAt (vals : ValidatorSet) :
    ∑ i ∈ Finset.range vals.size, vals.powerAt i = vals.totalVotingPower := by
  rw [Finset.sum_range, totalVotingPower, ← Fin.sum_univ_fun_getElem]
  refine Finset.sum_congr rfl fun i _ ↦ ?_
  have hi : vals.validators[i.1]? = some vals.validators[i.1] := List.getElem?_eq_getElem i.2
  simp [powerAt, hi]

end ValidatorSet

end Tenderdash
