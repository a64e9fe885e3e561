import Tenderdash.Crypto.Merkle
import Tenderdash.Lib.Quorum

/-!
# Part sets

`types/part_set.go`: a block is cut into parts of a fixed size, and the parts
carry Merkle proofs against the root that the part set header names.  A node
that learns a header collects parts with `AddPart` until it has them all, then
reads the block back with `GetReader`.

## What is transcribed

`NewPartSetFromData`, `NewPartSetFromHeader`, `Header`, `AddPart`, `IsComplete`
and reading `GetReader` to the end follow the Go code.  The part slice and the
bit array are functions on indices; the sizes are natural numbers (the Go code
computes them in `uint32` and `int64`, which no block reaches, and the
contract of `NewPartSetFromData` asks for a positive part size).

## What is proved

Every set reached from a header by `AddPart` keeps `Inv`: a filled slot holds a
part of its own index whose proof verifies against the root, and the bit
array, the count and the byte size describe the filled slots.  A complete set
then has every slot filled, and reading it yields its parts' bytes in order.

`AddPart` never compares the proof's index and total with the part's index and
the set's total (`Proof.Verify` leaves that to its caller), so the proof of
one chunk is accepted in the slot of another
(`addPart_accepts_proof_of_other_index`).  With that comparison, and hashes
that bind their input, every slot would hold its own chunk
(`Inv.bytes_eq_chunk`) and a complete set would read back the data
(`Inv.readAll_eq_data`).
-/

namespace Tenderdash

open Merkle

/-- `types.Part`. -/
structure Part where
  index : ℕ
  bytes : Bytes
  proof : Merkle.Proof
deriving DecidableEq, Repr

/-- `types.PartSet`. -/
structure PartSet where
  total : ℕ
  hash : Bytes
  parts : ℕ → Option Part
  partsBitArray : ℕ → Bool
  count : ℕ
  byteSize : ℕ

/-- The errors of `AddPart`. -/
inductive PartSetError where
  | unexpectedIndex
  | invalidProof
deriving DecidableEq, Repr

/-- `ErrPartSetUnexpectedIndex` and `ErrPartSetInvalidProof`. -/
def PartSetError.message : PartSetError → String
  | unexpectedIndex => "error part set unexpected index"
  | invalidProof => "error part set invalid proof"

namespace PartSet

variable (th : TreeHash)

/-- The `i`-th chunk of the data: `data[i*partSize : min(len(data), (i+1)*partSize)]`. -/
def chunk (data : Bytes) (partSize i : ℕ) : Bytes := (data.drop (i * partSize)).take partSize

/-- `NewPartSetFromData`: every chunk, with its proof, in a complete set. -/
def newPartSetFromData (data : Bytes) (partSize : ℕ) : PartSet :=
  let total := (data.length + partSize - 1) / partSize
  let proofs := proofsFromByteSlices th ((List.range total).map (chunk data partSize))
  { total
    hash := proofs.1
    parts := fun i ↦ proofs.2[i]?.map fun sp ↦ ⟨i, chunk data partSize i, sp⟩
    partsBitArray := fun i ↦ decide (i < total)
    count := total
    byteSize := data.length }

/-- `NewPartSetFromHeader`: an empty set waiting for the header's parts. -/
def newPartSetFromHeader (header : PartSetHeader) : PartSet :=
  ⟨header.total, header.hash, fun _ ↦ none, fun _ ↦ false, 0, 0⟩

/-- `Header`. -/
def header (ps : PartSet) : PartSetHeader := ⟨ps.total, ps.hash⟩

/-- The `// Add part` block of `AddPart`. -/
def insertPart (ps : PartSet) (part : Part) : PartSet :=
  { ps with
    parts := Function.update ps.parts part.index (some part)
    partsBitArray := Function.update ps.partsBitArray part.index true
    count := ps.count + 1
    byteSize := ps.byteSize + part.bytes.length }

/-- `AddPart`: the set after the call, whether the part was added, and the error. -/
def addPart (ps : PartSet) (part : Part) : PartSet × Bool × Option PartSetError :=
  if part.index ≥ ps.total then (ps, false, some .unexpectedIndex)
  else if (ps.parts part.index).isSome then (ps, false, none)
  else
    match part.proof.verify th ps.hash part.bytes with
    | .error _ => (ps, false, some .invalidProof)
    | .ok () => (ps.insertPart part, true, none)

/-- `AddPart` called on each part in turn. -/
def addParts (ps : PartSet) : List Part → PartSet
  | [] => ps
  | part :: rest => addParts (ps.addPart th part).1 rest

/-- `IsComplete`. -/
def isComplete (ps : PartSet) : Bool := ps.count == ps.total

/-- The parts below `n` read in index order, as `PartSetReader.Read` moves from
one part to the next; a missing part is the nil dereference of
`psr.parts[psr.i].Bytes`. -/
def readParts (parts : ℕ → Option Part) : ℕ → Except String Bytes
  | 0 => .ok []
  | n + 1 => do
      let front ← readParts parts n
      match parts n with
      | some part => .ok (front ++ part.bytes)
      | none => .error "runtime error: invalid memory address or nil pointer dereference"

/-- `GetReader` read to the end.  An incomplete set panics, and so does an
empty one (`NewPartSetReader` reads `parts[0]`). -/
def readAll (ps : PartSet) : Except String Bytes :=
  if !ps.isComplete then .error "Cannot GetReader() on incomplete PartSet"
  else if ps.total = 0 then .error "runtime error: index out of range [0] with length 0"
  else readParts ps.parts ps.total

section Lemmas

variable {th}

@[simp] theorem newPartSetFromData_total (data : Bytes) (partSize : ℕ) :
    (newPartSetFromData th data partSize).total = (data.length + partSize - 1) / partSize := rfl

@[simp] theorem newPartSetFromHeader_total (header : PartSetHeader) :
    (newPartSetFromHeader header).total = header.total := rfl

@[simp] theorem newPartSetFromHeader_hash (header : PartSetHeader) :
    (newPartSetFromHeader header).hash = header.hash := rfl

@[simp] theorem newPartSetFromHeader_parts (header : PartSetHeader) (i : ℕ) :
    (newPartSetFromHeader header).parts i = none := rfl

@[simp] theorem newPartSetFromHeader_count (header : PartSetHeader) :
    (newPartSetFromHeader header).count = 0 := rfl

@[simp] theorem header_total (ps : PartSet) : ps.header.total = ps.total := rfl

@[simp] theorem header_hash (ps : PartSet) : ps.header.hash = ps.hash := rfl

@[simp] theorem insertPart_total (ps : PartSet) (part : Part) :
    (ps.insertPart part).total = ps.total := rfl

@[simp] theorem insertPart_hash (ps : PartSet) (part : Part) :
    (ps.insertPart part).hash = ps.hash := rfl

@[simp] theorem insertPart_parts (ps : PartSet) (part : Part) :
    (ps.insertPart part).parts = Function.update ps.parts part.index (some part) := rfl

@[simp] theorem insertPart_count (ps : PartSet) (part : Part) :
    (ps.insertPart part).count = ps.count + 1 := rfl

/-- What `AddPart` can do: leave the set as it is, or fill a free slot in range
with a part whose proof verifies against the root. -/
theorem addPart_cases (ps : PartSet) (part : Part) :
    (ps.addPart th part).1 = ps ∧ (ps.addPart th part).2.1 = false ∨
      part.index < ps.total ∧ ps.parts part.index = none ∧
        part.proof.verify th ps.hash part.bytes = .ok () ∧
        ps.addPart th part = (ps.insertPart part, true, none) := by
  unfold addPart
  split_ifs with hidx hfree
  · exact .inl ⟨rfl, rfl⟩
  · exact .inl ⟨rfl, rfl⟩
  · have hnone : ps.parts part.index = none := by simpa using hfree
    split
    · exact .inl ⟨rfl, rfl⟩
    · rename_i hv
      exact .inr ⟨by omega, hnone, hv, rfl⟩

/-- A part is added exactly when its index is in range and free, and its proof
verifies against the set's root; nothing relates the proof to the index. -/
theorem addPart_added_iff (ps : PartSet) (part : Part) :
    (ps.addPart th part).2 = (true, none) ↔
      part.index < ps.total ∧ ps.parts part.index = none ∧
        part.proof.verify th ps.hash part.bytes = .ok () := by
  constructor
  · intro h
    rcases addPart_cases ps part with ⟨-, hfalse⟩ | ⟨hidx, hfree, hver, -⟩
    · rw [h] at hfalse
      cases hfalse
    · exact ⟨hidx, hfree, hver⟩
  · rintro ⟨hidx, hfree, hver⟩
    unfold addPart
    rw [if_neg (by omega), if_neg (by simp [hfree]), hver]

/-- The set after a part was added. -/
theorem addPart_of_added {ps : PartSet} {part : Part} (h : (ps.addPart th part).2 = (true, none)) :
    (ps.addPart th part).1 = ps.insertPart part := by
  rcases addPart_cases ps part with ⟨-, hfalse⟩ | ⟨-, -, -, heq⟩
  · rw [h] at hfalse
    cases hfalse
  · rw [heq]

@[simp] theorem addPart_total (ps : PartSet) (part : Part) :
    (ps.addPart th part).1.total = ps.total := by
  rcases addPart_cases ps part with ⟨heq, -⟩ | ⟨-, -, -, heq⟩
  · rw [heq]
  · rw [heq]
    rfl

@[simp] theorem addPart_hash (ps : PartSet) (part : Part) :
    (ps.addPart th part).1.hash = ps.hash := by
  rcases addPart_cases ps part with ⟨heq, -⟩ | ⟨-, -, -, heq⟩
  · rw [heq]
  · rw [heq]
    rfl

/-! ## Sets built from data -/

/-- Every part of a set built from data holds its chunk and a proof of the
chunk against the set's root. -/
theorem newPartSetFromData_part (data : Bytes) (partSize : ℕ) {j : ℕ}
    (hj : j < (newPartSetFromData th data partSize).total) :
    ∃ part, (newPartSetFromData th data partSize).parts j = some part ∧ part.index = j ∧
      part.bytes = chunk data partSize j ∧
      part.proof.verify th (newPartSetFromData th data partSize).hash part.bytes = .ok () := by
  set items := (List.range ((data.length + partSize - 1) / partSize)).map (chunk data partSize)
  have hlen : j < items.length := by simpa [items] using hj
  obtain ⟨sp, hsp, -, -, hver⟩ := proofsFromByteSlices_verify th items j hlen
  refine ⟨⟨j, chunk data partSize j, sp⟩, ?_, rfl, rfl, ?_⟩
  · simp [newPartSetFromData, items, hsp]
  · have hitem : items[j] = chunk data partSize j := by simp [items]
    rw [hitem] at hver
    exact hver

/-- The chunks below `n` put back together are the first `n` chunks' worth of
the data. -/
theorem flatMap_chunk (data : Bytes) (partSize n : ℕ) :
    (List.range n).flatMap (chunk data partSize) = data.take (n * partSize) := by
  induction n with
  | zero => simp
  | succ n ih =>
      rw [List.range_succ, List.flatMap_append, ih, List.flatMap_singleton, chunk,
        ← List.take_add, Nat.succ_mul]

/-- The chunks of a set built from data, put back together, are the data. -/
theorem flatMap_chunk_total (data : Bytes) {partSize : ℕ} (hs : 0 < partSize) :
    (List.range ((data.length + partSize - 1) / partSize)).flatMap (chunk data partSize) =
      data := by
  rw [flatMap_chunk, List.take_of_length_le]
  have hdiv := Nat.div_add_mod (data.length + partSize - 1) partSize
  have hmod := Nat.mod_lt (data.length + partSize - 1) hs
  rw [Nat.mul_comm]
  omega

/-! ## Sets reached from a header -/

variable (th) in
/-- What `AddPart` keeps of a set: a filled slot holds a part of its own index
whose proof verifies against the root, and the bit array, the count and the
byte size describe the filled slots. -/
structure Inv (ps : PartSet) : Prop where
  slot : ∀ {i part}, ps.parts i = some part →
    part.index = i ∧ i < ps.total ∧ part.proof.verify th ps.hash part.bytes = .ok ()
  bits : ∀ i, ps.partsBitArray i = (ps.parts i).isSome
  count : ps.count = (Slots.occupied ps.total ps.parts).card
  byteSize : ps.byteSize =
    ∑ i ∈ Slots.occupied ps.total ps.parts, ((ps.parts i).map (·.bytes.length)).getD 0

theorem inv_newPartSetFromHeader (header : PartSetHeader) :
    Inv th (newPartSetFromHeader header) where
  slot := by simp
  bits := by simp [newPartSetFromHeader]
  count := by simp [newPartSetFromHeader]
  byteSize := by simp [newPartSetFromHeader]

/-- Filling a free slot in range with a part of that index whose proof verifies
keeps the invariant. -/
theorem Inv.insertPart {ps : PartSet} (hinv : Inv th ps) {part : Part}
    (hidx : part.index < ps.total) (hfree : ps.parts part.index = none)
    (hver : part.proof.verify th ps.hash part.bytes = .ok ()) :
    Inv th (ps.insertPart part) where
  slot := by
    intro i p hp
    by_cases hi : i = part.index
    · subst hi
      simp only [insertPart_parts, Function.update_self, Option.some.injEq] at hp
      subst hp
      exact ⟨rfl, hidx, hver⟩
    · rw [insertPart_parts, Function.update_of_ne hi] at hp
      exact hinv.slot hp
  bits := by
    intro i
    by_cases hi : i = part.index
    · subst hi
      simp [PartSet.insertPart]
    · simp [PartSet.insertPart, Function.update_of_ne hi, hinv.bits i]
  count := by
    have hnot : part.index ∉ Slots.occupied ps.total ps.parts := by simp [hfree]
    simp [Slots.occupied_update_some hidx, Finset.card_insert_of_notMem hnot, hinv.count]
  byteSize := by
    simp only [PartSet.insertPart]
    rw [Slots.sum_entries_update_of_none _ hidx hfree, hinv.byteSize]

/-- `AddPart` keeps the invariant. -/
theorem Inv.addPart {ps : PartSet} (hinv : Inv th ps) (part : Part) :
    Inv th (ps.addPart th part).1 := by
  rcases addPart_cases ps part with ⟨heq, -⟩ | ⟨hidx, hfree, hver, heq⟩
  · rwa [heq]
  · rw [heq]
    exact hinv.insertPart hidx hfree hver

/-- Any run of `AddPart` keeps the invariant. -/
theorem Inv.addParts {ps : PartSet} (hinv : Inv th ps) (parts : List Part) :
    Inv th (ps.addParts th parts) := by
  induction parts generalizing ps with
  | nil => exact hinv
  | cons part rest ih => exact ih (hinv.addPart part)

@[simp] theorem addParts_total (ps : PartSet) (parts : List Part) :
    (ps.addParts th parts).total = ps.total := by
  induction parts generalizing ps with
  | nil => rfl
  | cons part rest ih => simp [addParts, ih]

@[simp] theorem addParts_hash (ps : PartSet) (parts : List Part) :
    (ps.addParts th parts).hash = ps.hash := by
  induction parts generalizing ps with
  | nil => rfl
  | cons part rest ih => simp [addParts, ih]

/-- A complete set has every slot filled. -/
theorem Inv.isSome_of_isComplete {ps : PartSet} (hinv : Inv th ps) (hc : ps.isComplete)
    {i : ℕ} (hi : i < ps.total) : (ps.parts i).isSome := by
  have hcard : (Slots.occupied ps.total ps.parts).card = ps.total := by
    rw [← hinv.count]
    simpa [isComplete] using hc
  exact Slots.isSome_of_card_occupied hcard hi

/-- Reading parts that are all there yields their bytes in order. -/
theorem readParts_of_isSome (parts : ℕ → Option Part) (n : ℕ)
    (h : ∀ i < n, (parts i).isSome) :
    readParts parts n = .ok ((List.range n).flatMap fun i ↦ ((parts i).map (·.bytes)).getD []) := by
  induction n with
  | zero => rfl
  | succ n ih =>
      obtain ⟨part, hpart⟩ := Option.isSome_iff_exists.mp (h n (by omega))
      rw [readParts, ih fun i hi ↦ h i (by omega), hpart, List.range_succ, List.flatMap_append,
        List.flatMap_singleton, hpart]
      rfl

/-- A complete nonempty set reads back as its parts' bytes in index order. -/
theorem Inv.readAll_eq {ps : PartSet} (hinv : Inv th ps) (hc : ps.isComplete)
    (hpos : 0 < ps.total) :
    ps.readAll = .ok ((List.range ps.total).flatMap fun i ↦ ((ps.parts i).map (·.bytes)).getD []) := by
  rw [readAll, if_neg (by simp [hc]), if_neg (by omega)]
  exact readParts_of_isSome ps.parts ps.total fun i hi ↦ hinv.isSome_of_isComplete hc hi

/-- A set that reads back is complete and not empty. -/
theorem isComplete_of_readAll {ps : PartSet} {bz : Bytes} (h : ps.readAll = .ok bz) :
    ps.isComplete ∧ 0 < ps.total := by
  unfold readAll at h
  split_ifs at h with hc hz
  exact ⟨by simpa using hc, Nat.pos_of_ne_zero hz⟩

/-- Two sets that keep the invariant are equal once their totals, roots and slots are:
the bit array, the count and the byte size are read off the slots. -/
theorem Inv.ext {ps q : PartSet} (hps : Inv th ps) (hq : Inv th q) (htotal : q.total = ps.total)
    (hhash : q.hash = ps.hash) (hparts : q.parts = ps.parts) : q = ps := by
  obtain ⟨t, h, p, b, c, s⟩ := ps
  obtain ⟨qt, qh, qp, qb, qc, qs⟩ := q
  simp only at htotal hhash hparts
  subst htotal hhash hparts
  have hbits : qb = b := funext fun i ↦ (hq.bits i).trans (hps.bits i).symm
  have hcount : qc = c := hq.count.trans hps.count.symm
  have hsize : qs = s := hq.byteSize.trans hps.byteSize.symm
  subst hbits hcount hsize
  rfl

/-! ## Parts that arrive in order

A set waiting for the header of a complete set `ps` that is handed `ps`'s parts in
index order holds, after `k` of them, exactly the parts below `k`.  Every part is added
with no error, the set stays within `ps`'s byte size, it is incomplete until the last
part, and the last part makes it `ps` again. -/

variable (th) in
/-- `q` is a set waiting for `ps`'s header once `ps`'s parts below `k` have arrived. -/
structure Delivered (ps q : PartSet) (k : ℕ) : Prop where
  inv : Inv th q
  total : q.total = ps.total
  hash : q.hash = ps.hash
  parts : ∀ i, q.parts i = if i < k then ps.parts i else none

theorem delivered_newPartSetFromHeader (ps : PartSet) :
    Delivered th ps (newPartSetFromHeader ps.header) 0 where
  inv := inv_newPartSetFromHeader _
  total := rfl
  hash := rfl
  parts := by simp

section Delivered

variable {ps q : PartSet} {k : ℕ}

/-- The next part in order is added, and the set then holds the parts below `k + 1`. -/
theorem Delivered.addPart (hps : Inv th ps) (hd : Delivered th ps q k) {part : Part}
    (hpart : ps.parts k = some part) :
    q.addPart th part = (q.insertPart part, true, none) ∧
      Delivered th ps (q.insertPart part) (k + 1) := by
  obtain ⟨hindex, hk, hver⟩ := hps.slot hpart
  have hidx : part.index < q.total := by rw [hd.total, hindex]; exact hk
  have hfree : q.parts part.index = none := by simp [hd.parts, hindex]
  have hver' : part.proof.verify th q.hash part.bytes = .ok () := by rw [hd.hash]; exact hver
  have hadded : (q.addPart th part).2 = (true, none) :=
    (addPart_added_iff q part).mpr ⟨hidx, hfree, hver'⟩
  refine ⟨Prod.ext (addPart_of_added hadded) hadded,
    ⟨hd.inv.insertPart hidx hfree hver', hd.total, hd.hash, fun i ↦ ?_⟩⟩
  rw [insertPart_parts, hindex]
  by_cases hi : i = k
  · subst hi
    simp [hpart]
  · rw [Function.update_of_ne hi, hd.parts]
    simp only [show i < k + 1 ↔ i < k by omega]

/-- Of a complete set, the part at `k` is there to be added next. -/
theorem Delivered.addPart_next (hps : Inv th ps) (hc : ps.isComplete) (hd : Delivered th ps q k)
    (hk : k < ps.total) :
    ∃ part, ps.parts k = some part ∧ q.addPart th part = (q.insertPart part, true, none) ∧
      Delivered th ps (q.insertPart part) (k + 1) := by
  obtain ⟨part, hpart⟩ := Option.isSome_iff_exists.mp (hps.isSome_of_isComplete hc hk)
  exact ⟨part, hpart, hd.addPart hps hpart⟩

/-- A set of delivered parts is no larger than the whole set. -/
theorem Delivered.byteSize_le (hps : Inv th ps) (hd : Delivered th ps q k) :
    q.byteSize ≤ ps.byteSize := by
  rw [hd.inv.byteSize, hps.byteSize, hd.total]
  refine Slots.sum_entries_mono _ _ fun i part hpart ↦ ?_
  rw [hd.parts] at hpart
  split_ifs at hpart
  exact hpart

/-- Before the last part has arrived, the set is incomplete. -/
theorem Delivered.isComplete_eq_false (hd : Delivered th ps q k) (hk : k < ps.total) :
    q.isComplete = false := by
  by_contra hcomp
  have hsome := hd.inv.isSome_of_isComplete (by simpa using hcomp)
    (show k < q.total by rw [hd.total]; exact hk)
  simp [hd.parts] at hsome

/-- Once every part has arrived, the set is the whole set. -/
theorem Delivered.eq (hps : Inv th ps) (hd : Delivered th ps q ps.total) : q = ps := by
  refine hps.ext hd.inv hd.total hd.hash (funext fun i ↦ ?_)
  rw [hd.parts]
  split_ifs with hi
  · rfl
  · cases hpart : ps.parts i with
    | none => rfl
    | some part => exact absurd (hps.slot hpart).2.1 hi

end Delivered

/-! ## The defect -/

/-- The part of index `j` of a set built from data, relabelled with any free
index `i` of a set waiting for the same header, is added there. -/
theorem addPart_accepts_proof_of_other_index (data : Bytes) (partSize : ℕ) {j : ℕ}
    (hj : j < (newPartSetFromData th data partSize).total) {part : Part}
    (hpart : (newPartSetFromData th data partSize).parts j = some part) {ps : PartSet}
    (hheader : ps.header = (newPartSetFromData th data partSize).header) {i : ℕ}
    (hi : i < ps.total) (hfree : ps.parts i = none) :
    (ps.addPart th { part with index := i }).2 = (true, none) := by
  obtain ⟨part', hpart', -, -, hver⟩ := newPartSetFromData_part data partSize hj
  rw [hpart, Option.some.injEq] at hpart'
  subst hpart'
  have hhash : ps.hash = (newPartSetFromData th data partSize).hash := by
    simpa using congrArg PartSetHeader.hash hheader
  rw [addPart_added_iff]
  exact ⟨hi, hfree, hhash ▸ hver⟩

/-- Data `[1, 2]` in parts of one byte, for any hashes: the part of index 1,
relabelled 0, is added at slot 0 of a set waiting for the data's header,
though it does not hold chunk 0; the genuine part 1 then completes the set,
which reads back `[2, 2]`. -/
theorem partSet_accepts_misplaced_part (th : TreeHash) :
    ∃ part, (newPartSetFromData th [1, 2] 1).parts 1 = some part ∧
      let ps := newPartSetFromHeader (newPartSetFromData th [1, 2] 1).header
      let forged := { part with index := 0 }
      (ps.addPart th forged).2 = (true, none) ∧ forged.bytes ≠ chunk [1, 2] 1 0 ∧
        ((ps.addPart th forged).1.addPart th part).2 = (true, none) ∧
        ((ps.addPart th forged).1.addPart th part).1.readAll = .ok [2, 2] := by
  have hj : 1 < (newPartSetFromData th [1, 2] 1).total := by simp
  obtain ⟨part, hpart, hindex, hbytes, hver⟩ := newPartSetFromData_part [1, 2] 1 hj
  refine ⟨part, hpart, ?_⟩
  intro ps forged
  have hadd₁ : (ps.addPart th forged).2 = (true, none) :=
    addPart_accepts_proof_of_other_index [1, 2] 1 hj hpart (show ps.header = _ from rfl)
      (show 0 < ps.total by simp [ps]) (show ps.parts 0 = none from rfl)
  have hset₁ := addPart_of_added hadd₁
  have hadd₂ : ((ps.addPart th forged).1.addPart th part).2 = (true, none) := by
    rw [hset₁, addPart_added_iff]
    refine ⟨by simp [ps, hindex], by simp [ps, forged, hindex], hver⟩
  refine ⟨hadd₁, by simp [forged, hbytes, chunk], hadd₂, ?_⟩
  have hset₂ : ((ps.addPart th forged).1.addPart th part).1 = (ps.insertPart forged).insertPart part := by
    rw [addPart_of_added hadd₂, hset₁]
  have hinv₀ : Inv th ps := inv_newPartSetFromHeader _
  have hinv := (hinv₀.addPart forged).addPart part
  rw [hset₂] at hinv ⊢
  have hc : ((ps.insertPart forged).insertPart part).isComplete := by
    simp [isComplete, ps]
  rw [hinv.readAll_eq hc (by simp [ps])]
  simp [ps, forged, hindex, hbytes, chunk, List.range_succ]

/-! ## What the missing comparison would give

A slot whose part carries a proof for that slot and the set's total holds the
chunk of the data, when the hashes bind their input. -/

section Sound

variable {data : Bytes} {partSize : ℕ} {ps : PartSet}

/-- A part in a slot, with a proof naming that slot and the set's total, holds
the slot's chunk. -/
theorem Inv.bytes_eq_chunk (hth : th.Binding) (hinv : Inv th ps)
    (hheader : ps.header = (newPartSetFromData th data partSize).header) {i : ℕ} {part : Part}
    (hpart : ps.parts i = some part) (hindex : part.proof.index = i)
    (htotal : part.proof.total = ps.total) : part.bytes = chunk data partSize i := by
  obtain ⟨-, hi, hver⟩ := hinv.slot hpart
  have htot : ps.total = (data.length + partSize - 1) / partSize := by
    simpa using congrArg PartSetHeader.total hheader
  have hhash : ps.hash = (newPartSetFromData th data partSize).hash := by
    simpa using congrArg PartSetHeader.hash hheader
  set items := (List.range ((data.length + partSize - 1) / partSize)).map (chunk data partSize)
  have hlen : items.length = ps.total := by simp [items, htot]
  have hi' : i < items.length := by omega
  have hver' : part.proof.verify th (proofsFromByteSlices th items).1 part.bytes = .ok () := by
    rw [hhash] at hver
    exact hver
  have hsound := proofsFromByteSlices_sound th hth items hi' part.proof hindex
    (by rw [htotal, hlen]) hver'
  simpa [items] using hsound

/-- A complete set whose parts' proofs name their slots and the set's total
reads back the data. -/
theorem Inv.readAll_eq_data (hth : th.Binding) (hinv : Inv th ps) (hs : 0 < partSize)
    (hheader : ps.header = (newPartSetFromData th data partSize).header) (hc : ps.isComplete)
    (hpos : 0 < ps.total)
    (hproofs : ∀ i part, ps.parts i = some part →
      part.proof.index = i ∧ part.proof.total = ps.total) :
    ps.readAll = .ok data := by
  have htot : ps.total = (data.length + partSize - 1) / partSize := by
    simpa using congrArg PartSetHeader.total hheader
  rw [hinv.readAll_eq hc hpos, ← flatMap_chunk_total data hs, ← htot]
  congr 1
  refine List.flatMap_congr fun i hi ↦ ?_
  obtain ⟨part, hpart⟩ :=
    Option.isSome_iff_exists.mp (hinv.isSome_of_isComplete hc (List.mem_range.mp hi))
  obtain ⟨hindex, htotal⟩ := hproofs i part hpart
  simp [hpart, hinv.bytes_eq_chunk hth hheader hpart hindex htotal]

/-- Data `[1, 2, 3]` in parts of two bytes, with the tagged hashes: the parts added to a
set waiting for its header, the second first, carry proofs of their own slots, and the
complete set reads back the data. -/
theorem readAll_eq_data_out_of_order :
    let data := newPartSetFromData TreeHash.tagged [1, 2, 3] 2
    let ps := (newPartSetFromHeader data.header).addParts TreeHash.tagged
      ([1, 0].filterMap data.parts)
    ps.header = data.header ∧ ps.isComplete ∧ 0 < ps.total ∧
      (∀ i part, ps.parts i = some part → part.proof.index = i ∧ part.proof.total = ps.total) ∧
      ps.readAll = .ok [1, 2, 3] := by
  intro data ps
  have hinv : Inv TreeHash.tagged ps := (inv_newPartSetFromHeader _).addParts _
  have hslots : ∀ i < 2,
      (ps.parts i).map (fun p ↦ (p.proof.index, p.proof.total)) = some ((i : ℤ), 2) := by
    decide
  have hproofs : ∀ i part, ps.parts i = some part →
      part.proof.index = i ∧ part.proof.total = ps.total := by
    intro i part h
    have hslot := hslots i (hinv.slot h).2.1
    rw [h] at hslot
    simp only [Option.map_some, Option.some.injEq, Prod.mk.injEq] at hslot
    exact ⟨hslot.1, hslot.2.trans (by decide)⟩
  exact ⟨by decide, by decide, by decide, hproofs,
    hinv.readAll_eq_data TreeHash.tagged_binding (show 0 < 2 by decide)
      (show ps.header = data.header by decide) (by decide) (by decide) hproofs⟩

end Sound

end Lemmas

end PartSet

end Tenderdash
