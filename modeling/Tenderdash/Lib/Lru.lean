import Mathlib.Data.List.Nodup

/-!
# LRU sets

A set of at most `cap` keys that remembers the order of use, from the least to
the most recently used.  `push` uses a key: a key already held becomes the most
recent and `push` answers `false`; a new key is added as the most recent, after
the least recently used key is evicted when the set is full, and `push` answers
`true`.  The invariants, each key once and at most `cap` keys, are fields, so
every operation carries the proof that it keeps them.

`push_of_mem`, `push_of_full` and `push_of_lt` say what `push` does in each
case, and `run` applies a list of operations.
-/

/-- An LRU set of capacity `cap`: its keys from the least to the most recently
used. -/
structure LruSet (α : Type) (cap : ℕ) where
  keys : List α
  nodup : keys.Nodup
  length_le : keys.length ≤ cap

namespace LruSet

variable {α : Type} {cap : ℕ}

theorem nodup_append_singleton {l : List α} {a : α} (hl : l.Nodup) (ha : a ∉ l) :
    (l ++ [a]).Nodup := by
  rw [← List.concat_eq_append, List.nodup_concat]
  exact ⟨ha, hl⟩

variable [DecidableEq α]

/-- Moving `a` to the back keeps a list free of duplicates. -/
theorem nodup_erase_append_singleton {l : List α} (hl : l.Nodup) (a : α) :
    (l.erase a ++ [a]).Nodup :=
  nodup_append_singleton (hl.erase a) (fun h ↦ (hl.mem_erase_iff.mp h).1 rfl)

/-- The empty set. -/
def empty : LruSet α cap := ⟨[], List.nodup_nil, Nat.zero_le _⟩

/-- Use `a`, in a set of positive capacity. -/
def push (hcap : 0 < cap) (s : LruSet α cap) (a : α) : LruSet α cap × Bool :=
  if h : a ∈ s.keys then
    (⟨s.keys.erase a ++ [a], nodup_erase_append_singleton s.nodup a,
      by rw [List.length_append, List.length_erase_of_mem h, List.length_singleton]
         have := s.length_le
         have := List.length_pos_of_mem h
         omega⟩, false)
  else if hfull : cap ≤ s.keys.length then
    (⟨s.keys.tail ++ [a],
      nodup_append_singleton (s.nodup.sublist (List.tail_sublist _))
        (fun h' ↦ h (List.mem_of_mem_tail h')),
      by rw [List.length_append, List.length_tail, List.length_singleton]
         have := s.length_le
         omega⟩, true)
  else
    (⟨s.keys ++ [a], nodup_append_singleton s.nodup h,
      by rw [List.length_append, List.length_singleton]
         omega⟩, true)

/-- Forget `a`. -/
def erase (s : LruSet α cap) (a : α) : LruSet α cap :=
  ⟨s.keys.erase a, s.nodup.erase a, Nat.le_trans List.length_erase_le s.length_le⟩

/-- An operation on an LRU set. -/
inductive Op (α : Type) where
  | push (a : α)
  | erase (a : α)
  | reset
deriving DecidableEq, Repr

/-- A run of operations, with what each `push` answered. -/
def run (hcap : 0 < cap) : LruSet α cap → List (Op α) → LruSet α cap × List Bool
  | s, [] => (s, [])
  | s, .push a :: ops =>
    let r := run hcap (s.push hcap a).1 ops
    (r.1, (s.push hcap a).2 :: r.2)
  | s, .erase a :: ops => run hcap (s.erase a) ops
  | _, .reset :: ops => run hcap empty ops

variable (hcap : 0 < cap) (s : LruSet α cap) (a : α)

/-- A key already held becomes the most recent, and `push` answers `false`. -/
theorem push_of_mem (h : a ∈ s.keys) :
    (s.push hcap a).1.keys = s.keys.erase a ++ [a] ∧ (s.push hcap a).2 = false := by
  simp [push, h]

/-- A new key in a full set evicts the least recently used key, the head of
`keys`, and `push` answers `true`. -/
theorem push_of_full (h : a ∉ s.keys) (hfull : s.keys.length = cap) :
    (s.push hcap a).1.keys = s.keys.tail ++ [a] ∧ (s.push hcap a).2 = true := by
  simp [push, h, hfull]

/-- A new key in a set with room is added as the most recent, and `push`
answers `true`. -/
theorem push_of_lt (h : a ∉ s.keys) (hroom : s.keys.length < cap) :
    (s.push hcap a).1.keys = s.keys ++ [a] ∧ (s.push hcap a).2 = true := by
  simp [push, h, Nat.not_le.mpr hroom]

end LruSet
