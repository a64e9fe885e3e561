import Mathlib.Data.List.AList
import Tenderdash.Lib.Slice

/-!
# The address book of the peer exchange

`p2p/pex/addrbook.go` and `known_address.go`.  The book keeps every address it knows in a
`knownAddress` record, and records where it is three times over: under its ID in
`addrLookup`, under its `String()` in each bucket that `Buckets` lists, and in the counters
`nNew` and `nOld`.  A new address sits in up to four of the 256 new buckets, a good one in
one of the 64 old buckets; `MarkBad` moves an address to `badPeers`, and
`ReinstateBadPeers` brings it back once its ban has expired.

The records are shared by pointer between the maps, so the model has a heap: `heap p` is
the record pointer `p` points to, and `next` is the next pointer to allocate.  A Go map is a
Mathlib `AList`; its iteration order, which Go leaves unspecified, is the list's.  Each
call happens at one instant `now`, which stands for every `time.Now()` in it.

What the book reads of an address is the record `AddrEnv`: its ID, its `String()`, the
error of `Valid()`, `Routable()`, and the bucket placement `calcNewBucket` and
`calcOldBucket`, hashes keyed by the book's random key.  A hash that fails is a
`highwayhash` key of the wrong size, which `newHashKey` never makes, so the placements are
total; they reduce modulo the bucket counts, so no bucket slice is indexed out of range,
and the buckets are indexed by `BucketType` and a natural number.  The mutex, the logger,
the file and `PickAddress`'s random choice of an address are left out.
-/

namespace Tenderdash.Pex

/-- `time.Time`, in nanoseconds; the zero time is `0`. -/
abbrev Time := ℤ

/-- `time.Minute`. -/
def minute : ℤ := 60 * 1000000000

/-- `time.Hour * 24`. -/
def day : ℤ := 24 * 60 * minute

/-- Max addresses in each old address bucket. -/
def oldBucketSize : ℕ := 64

/-- Buckets we split old addresses over. -/
def oldBucketCount : ℕ := 64

/-- Max addresses in each new address bucket. -/
def newBucketSize : ℕ := 64

/-- Buckets that we spread new addresses over. -/
def newBucketCount : ℕ := 256

/-- Buckets a frequently seen new address may end up in. -/
def maxNewBucketsPerAddress : ℕ := 4

/-- Days before which we assume an address has vanished. -/
def numMissingDays : ℤ := 7

/-- Tries without a single success before we assume an address is bad. -/
def numRetries : Int32 := 3

/-- Max failures we will accept without a success before considering an address bad. -/
def maxFailures : Int32 := 10

/-- Days since the last success before we will consider evicting an address. -/
def minBadDays : ℤ := 7

/-- `bucketTypeNew` and `bucketTypeOld`. -/
inductive BucketType where
  | new
  | old
deriving DecidableEq, Repr

/-- The length of `bucketsNew` and of `bucketsOld`, as `init` makes them. -/
def bucketCount : BucketType → ℕ
  | .new => newBucketCount
  | .old => oldBucketCount

/-- A pointer to a `knownAddress`. -/
abbrev Ptr := ℕ

/-- `knownAddress`. -/
structure KnownAddress (A : Type) where
  addr : A
  src : A
  buckets : List ℕ
  attempts : Int32
  bucketType : BucketType
  lastAttempt : Time
  lastSuccess : Time
  lastBanTime : Time
deriving DecidableEq, Repr

/-- What the address book reads of a `NetAddress`, and its bucket placement. -/
structure AddrEnv (A I K : Type) where
  /-- `addr.ID`. -/
  id : A → I
  /-- `addr.String()`, the key of the buckets. -/
  str : A → K
  /-- The error of `addr.Valid()`, if any. -/
  addrErr : A → Option String
  /-- `addr.Routable()`. -/
  routable : A → Bool
  routabilityStrict : Bool
  /-- `calcNewBucket(addr, src)`. -/
  calcNewBucket : A → A → Fin newBucketCount
  /-- `calcOldBucket(addr)`. -/
  calcOldBucket : A → Fin oldBucketCount

/-- The errors of `AddAddress`. -/
inductive AddrBookError (A : Type) where
  /-- `ErrAddrBookNilAddr`. -/
  | nilAddr (addr src : Option A)
  /-- `ErrAddrBookInvalidAddr`, with the error of `Valid()`. -/
  | invalidAddr (addr : A) (addrErr : String)
  /-- `ErrAddressBanned`. -/
  | addressBanned (addr : A)
  /-- `ErrAddrBookPrivate`. -/
  | privateAddr (addr : A)
  /-- `ErrAddrBookPrivateSrc`. -/
  | privateSrc (src : A)
  /-- `ErrAddrBookSelf`. -/
  | self (addr : A)
  /-- `ErrAddrBookNonRoutable`. -/
  | nonRoutable (addr : A)
  /-- `errAddrBookOldAddressNewBucket`. -/
  | oldAddressNewBucket (addr : A) (bucketID : ℕ)
deriving DecidableEq, Repr

namespace KnownAddress

variable {A : Type}

/-- `newKnownAddress`. -/
def newKnownAddress (addr src : A) (now : Time) : KnownAddress A :=
  ⟨addr, src, [], 0, .new, now, 0, 0⟩

def isOld (ka : KnownAddress A) : Bool := ka.bucketType = .old

def isNew (ka : KnownAddress A) : Bool := ka.bucketType = .new

def markAttempt (ka : KnownAddress A) (now : Time) : KnownAddress A :=
  { ka with lastAttempt := now, attempts := ka.attempts + 1 }

def markGood (ka : KnownAddress A) (now : Time) : KnownAddress A :=
  { ka with lastAttempt := now, attempts := 0, lastSuccess := now }

def ban (ka : KnownAddress A) (now banTime : Time) : KnownAddress A :=
  if ka.lastBanTime < now + banTime then { ka with lastBanTime := now + banTime } else ka

def isBanned (ka : KnownAddress A) (now : Time) : Bool := now < ka.lastBanTime

/-- `addBucketRef`: `-1` for a bucket already listed, else the new number of buckets. -/
def addBucketRef (ka : KnownAddress A) (bucketIdx : ℕ) : KnownAddress A × ℤ :=
  if bucketIdx ∈ ka.buckets then (ka, -1)
  else ({ ka with buckets := ka.buckets ++ [bucketIdx] }, ka.buckets.length + 1)

/-- `removeBucketRef`: `-1` for a bucket not listed once, else the new number of buckets. -/
def removeBucketRef (ka : KnownAddress A) (bucketIdx : ℕ) : KnownAddress A × ℤ :=
  let buckets := ka.buckets.filter (· ≠ bucketIdx)
  if (buckets.length : ℤ) ≠ ka.buckets.length - 1 then (ka, -1)
  else ({ ka with buckets }, buckets.length)

/-- `isBad`: a new address not tried in the last minute that is too old, or has failed too
often. -/
def isBad (ka : KnownAddress A) (now : Time) : Bool :=
  if ka.bucketType = .old then false
  else if now - minute < ka.lastAttempt then false
  else if ka.lastAttempt < now - numMissingDays * day then true
  else if ka.lastSuccess = 0 ∧ numRetries ≤ ka.attempts then true
  else if ka.lastSuccess < now - minBadDays * day ∧ maxFailures ≤ ka.attempts then true
  else false

end KnownAddress

open KnownAddress

/-- `addrBook`: the buckets are `buckets .new i` (`bucketsNew[i]`) and `buckets .old i`
(`bucketsOld[i]`), the counters `n .new` (`nNew`) and `n .old` (`nOld`). -/
structure AddrBook (A I K : Type) where
  ourAddrs : List K
  privateIDs : List I
  heap : Ptr → KnownAddress A
  next : Ptr
  addrLookup : AList (fun _ : I ↦ Ptr)
  badPeers : AList (fun _ : I ↦ Ptr)
  buckets : BucketType → ℕ → AList (fun _ : K ↦ Ptr)
  n : BucketType → ℤ

/-- The calls of the `AddrBook` interface that change the book. -/
inductive Call (A I : Type) where
  | addOurAddress (addr : A)
  | addPrivateIDs (ids : List I)
  /-- With the draw of `rand.Int31n` it makes for an address it knows. -/
  | addAddress (addr src : Option A) (draw : ℕ)
  | removeAddress (addr : A)
  | markGood (id : I)
  | markAttempt (addr : A)
  | markBad (addr : A) (banTime : Time)
  | reinstateBadPeers

namespace AddrBook

variable {A I K : Type} [DecidableEq I] [DecidableEq K] (env : AddrEnv A I K)

/-- `NewAddrBook`, with every bucket empty; `ka0` is what no pointer points to yet. -/
def newAddrBook (ka0 : KnownAddress A) : AddrBook A I K :=
  ⟨[], [], fun _ ↦ ka0, 0, ∅, ∅, fun _ _ ↦ ∅, fun _ ↦ 0⟩

/-- `size`. -/
def size (s : AddrBook A I K) : ℤ := s.n .new + s.n .old

/-- The guard of `PickAddress` and `GetSelection`: a negative size panics, and an empty book
has nothing to give. -/
def checkSize (s : AddrBook A I K) : Except String Bool :=
  let nNew := s.n .new
  let nOld := s.n .old
  if nNew + nOld < 0 then
    throw s!"Addrbook size {nNew + nOld} (new: {nNew} + old: {nOld}) is less than 0"
  else pure (0 < nNew + nOld)

/-- `*p = ka`. -/
def heapSet (s : AddrBook A I K) (p : Ptr) (ka : KnownAddress A) : AddrBook A I K :=
  { s with heap := Function.update s.heap p ka }

/-- Replace bucket `idx` of type `t`. -/
def setBucket (s : AddrBook A I K) (t : BucketType) (idx : ℕ) (b : AList (fun _ : K ↦ Ptr)) :
    AddrBook A I K :=
  { s with buckets := fun t' idx' ↦ if t' = t ∧ idx' = idx then b else s.buckets t' idx' }

/-- `getBucket`, for a bucket index read from outside the book: past the end of the slice
of its type it panics. -/
def getBucket (s : AddrBook A I K) (bucketType : BucketType) (bucketIdx : ℕ) :
    Except String (AList (fun _ : K ↦ Ptr)) :=
  if bucketIdx < bucketCount bucketType then pure (s.buckets bucketType bucketIdx)
  else throw (Slice.indexOutOfRange bucketIdx (bucketCount bucketType))

/-- `nNew++` or `nOld++`. -/
def incr (s : AddrBook A I K) (t : BucketType) : AddrBook A I K :=
  { s with n := Function.update s.n t (s.n t + 1) }

/-- `nNew--` or `nOld--`. -/
def decr (s : AddrBook A I K) (t : BucketType) : AddrBook A I K :=
  { s with n := Function.update s.n t (s.n t - 1) }

/-- The end that `addToNewBucket` and `addToOldBucket` share: put the address in the
bucket, add the bucket to its list, count it if it was in no bucket, and ensure it is in
`addrLookup`. -/
def addToBucket (s : AddrBook A I K) (p : Ptr) (t : BucketType) (idx : ℕ) : AddrBook A I K :=
  let ka := s.heap p
  let s := s.setBucket t idx ((s.buckets t idx).insert (env.str ka.addr) p)
  let (ka', r) := ka.addBucketRef idx
  let s := s.heapSet p ka'
  let s := if r = 1 then s.incr t else s
  { s with addrLookup := s.addrLookup.insert (env.id ka.addr) p }

/-- `removeFromBucket`: a type other than the address's is logged and ignored; the address
leaves `addrLookup` with its last bucket. -/
def removeFromBucket (s : AddrBook A I K) (p : Ptr) (t : BucketType) (idx : ℕ) :
    AddrBook A I K :=
  let ka := s.heap p
  if ka.bucketType ≠ t then s
  else
    let s := s.setBucket t idx ((s.buckets t idx).erase (env.str ka.addr))
    let (ka', r) := ka.removeBucketRef idx
    let s := s.heapSet p ka'
    if r = 0 then { s.decr t with addrLookup := s.addrLookup.erase (env.id ka.addr) } else s

/-- The loop of `removeFromAllBuckets`: delete the key from each listed bucket of type `t`. -/
def eraseFromBuckets (s : AddrBook A I K) (t : BucketType) (k : K) (idxs : List ℕ) :
    AddrBook A I K :=
  idxs.foldl (fun s idx ↦ s.setBucket t idx ((s.buckets t idx).erase k)) s

/-- `removeFromAllBuckets`. -/
def removeFromAllBuckets (s : AddrBook A I K) (p : Ptr) : AddrBook A I K :=
  let ka := s.heap p
  let s := s.eraseFromBuckets ka.bucketType (env.str ka.addr) ka.buckets
  let s := s.heapSet p { ka with buckets := [] }
  { s.decr ka.bucketType with addrLookup := s.addrLookup.erase (env.id ka.addr) }

/-- One round of the loop of `pickOldest`: `oldest == nil || ka.LastAttempt.Before(...)`. -/
def pickOldestStep (s : AddrBook A I K) (oldest : Option Ptr) (q : Ptr) : Option Ptr :=
  match oldest with
  | none => some q
  | some o => if (s.heap q).lastAttempt < (s.heap o).lastAttempt then some q else some o

/-- `pickOldest`: the first address of the bucket, in its iteration order, with the
earliest `LastAttempt`; nil for an empty bucket. -/
def pickOldest (s : AddrBook A I K) (t : BucketType) (idx : ℕ) : Option Ptr :=
  (s.buckets t idx).entries.foldl (fun oldest e ↦ s.pickOldestStep oldest e.2) none

/-- `expireNew`: drop the first bad address of a new bucket, or else its oldest; the oldest
of an empty bucket is nil, which `removeFromBucket` dereferences. -/
def expireNew (s : AddrBook A I K) (idx : ℕ) (now : Time) : Except String (AddrBook A I K) :=
  match (s.buckets .new idx).entries.find? (fun e ↦ (s.heap e.2).isBad now) with
  | some e => pure (s.removeFromBucket env e.2 .new idx)
  | none =>
    match s.pickOldest .new idx with
    | some p => pure (s.removeFromBucket env p .new idx)
    | none => throw Slice.nilDereference

/-- `addToNewBucket`: an old address is refused with an error, an address already in the
bucket is left there, and a full bucket first expires an address. -/
def addToNewBucket (s : AddrBook A I K) (p : Ptr) (idx : ℕ) (now : Time) :
    Except String (AddrBook A I K × Option (AddrBookError A)) :=
  let ka := s.heap p
  if ka.bucketType = .old then pure (s, some (.oldAddressNewBucket ka.addr idx))
  else if env.str ka.addr ∈ s.buckets .new idx then pure (s, none)
  else
    (if newBucketSize < (s.buckets .new idx).entries.length then s.expireNew env idx now
      else pure s) >>= fun s ↦ pure (s.addToBucket env p .new idx, none)

/-- `addToOldBucket`: false for a new address, for one already in a bucket and for a full
bucket; an address already in the bucket counts as added. -/
def addToOldBucket (s : AddrBook A I K) (p : Ptr) (idx : ℕ) : AddrBook A I K × Bool :=
  let ka := s.heap p
  if ka.bucketType = .new then (s, false)
  else if ka.buckets.length ≠ 0 then (s, false)
  else if env.str ka.addr ∈ s.buckets .old idx then (s, true)
  else if oldBucketSize < (s.buckets .old idx).entries.length then (s, false)
  else (s.addToBucket env p .old idx, true)

/-- `moveToOld`: take a new address out of its buckets and into its old bucket; when that
bucket is full, remove its oldest address and hand it to `addToNewBucket`, whose error is
logged, then add the address again. -/
def moveToOld (s : AddrBook A I K) (p : Ptr) (now : Time) : Except String (AddrBook A I K) :=
  let ka := s.heap p
  if ka.bucketType = .old then pure s
  else if ka.buckets.length = 0 then pure s
  else
    let s := s.removeFromAllBuckets env p
    let s := s.heapSet p { s.heap p with bucketType := .old }
    let oldIdx : ℕ := env.calcOldBucket (s.heap p).addr
    match s.addToOldBucket env p oldIdx with
    | (s, true) => pure s
    | (s, false) =>
      match s.pickOldest .old oldIdx with
      | none => throw Slice.nilDereference
      | some o =>
        let s := s.removeFromBucket env o .old oldIdx
        let newIdx : ℕ := env.calcNewBucket (s.heap o).addr (s.heap o).src
        s.addToNewBucket env o newIdx now >>= fun r ↦ pure (r.1.addToOldBucket env p oldIdx).1

/-- `removeAddress`. -/
def removeAddress (s : AddrBook A I K) (addr : A) : AddrBook A I K :=
  match s.addrLookup.lookup (env.id addr) with
  | none => s
  | some p => s.removeFromAllBuckets env p

/-- `addBadPeer`: ban a known address, unless it is banned already; false for an address
the book does not know. -/
def addBadPeer (s : AddrBook A I K) (addr : A) (banTime now : Time) : AddrBook A I K × Bool :=
  match s.addrLookup.lookup (env.id addr) with
  | none => (s, false)
  | some p =>
    if env.id addr ∈ s.badPeers then (s, true)
    else
      let s := s.heapSet p ((s.heap p).ban now banTime)
      ({ s with badPeers := s.badPeers.insert (env.id addr) p }, true)

/-- `addAddress`: the checks, in their order, then a new bucket for a new address, or with
some chance another one for an address the book knows as new. -/
def addAddress (s : AddrBook A I K) (addr src : Option A) (draw : ℕ) (now : Time) :
    Except String (AddrBook A I K × Option (AddrBookError A)) :=
  match addr, src with
  | some addr, some src =>
    match env.addrErr addr with
    | some err => pure (s, some (.invalidAddr addr err))
    | none =>
      if env.id addr ∈ s.badPeers then pure (s, some (.addressBanned addr))
      else if env.id addr ∈ s.privateIDs then pure (s, some (.privateAddr addr))
      else if env.id src ∈ s.privateIDs then pure (s, some (.privateSrc src))
      else if env.str addr ∈ s.ourAddrs then pure (s, some (.self addr))
      else if env.routabilityStrict ∧ env.routable addr = false then
        pure (s, some (.nonRoutable addr))
      else
        match s.addrLookup.lookup (env.id addr) with
        | some p =>
          let ka := s.heap p
          if ka.bucketType = .old ∧ env.id ka.addr = env.id addr then pure (s, none)
          else if ka.buckets.length = maxNewBucketsPerAddress then pure (s, none)
          else
            -- `a.rand.Int31n(factor)`, which panics for a factor that is not positive
            let factor := 2 * ka.buckets.length
            if factor = 0 then throw "invalid argument to Int31n"
            else if draw % factor ≠ 0 then pure (s, none)
            else s.addToNewBucket env p (env.calcNewBucket addr src) now
        | none =>
          let p := s.next
          let s := { s.heapSet p (newKnownAddress addr src now) with next := p + 1 }
          s.addToNewBucket env p (env.calcNewBucket addr src) now
  | _, _ => pure (s, some (.nilAddr addr src))

/-- `MarkGood`: a new address moves to an old bucket; the error of `moveToOld` is logged. -/
def markGood (s : AddrBook A I K) (id : I) (now : Time) : Except String (AddrBook A I K) :=
  match s.addrLookup.lookup id with
  | none => pure s
  | some p =>
    let s := s.heapSet p ((s.heap p).markGood now)
    if (s.heap p).bucketType = .new then s.moveToOld env p now else pure s

/-- `MarkAttempt`. -/
def markAttempt (s : AddrBook A I K) (addr : A) (now : Time) : AddrBook A I K :=
  match s.addrLookup.lookup (env.id addr) with
  | none => s
  | some p => s.heapSet p ((s.heap p).markAttempt now)

/-- `MarkBad`: a known address goes to `badPeers` and out of the book. -/
def markBad (s : AddrBook A I K) (addr : A) (banTime now : Time) : AddrBook A I K :=
  match s.addBadPeer env addr banTime now with
  | (s, true) => s.removeAddress env addr
  | (s, false) => s

/-- One round of the loop of `ReinstateBadPeers`, at the entry `e` of `badPeers`: a bad peer
whose ban has run out goes back to a new bucket, and leaves `badPeers` whether
`addToNewBucket` took it or logged an error. -/
def reinstateBadPeer (s : AddrBook A I K) (e : Σ _ : I, Ptr) (now : Time) :
    Except String (AddrBook A I K) :=
  let ka := s.heap e.2
  if ka.isBanned now then pure s
  else
    s.addToNewBucket env e.2 (env.calcNewBucket ka.addr ka.src) now >>= fun r ↦
      pure { r.1 with badPeers := r.1.badPeers.erase (env.id ka.addr) }

/-- `ReinstateBadPeers`: the loop runs over `badPeers` as it was when it began; the loop
deletes only the entry it is at, so Go's map iteration sees the same entries. -/
def reinstateBadPeers (s : AddrBook A I K) (now : Time) : Except String (AddrBook A I K) :=
  s.badPeers.entries.foldlM (fun s e ↦ s.reinstateBadPeer env e now) s

/-- One call at `now`: the new book, and the error `AddAddress` returns; the book is a
panic's message. -/
def step (s : AddrBook A I K) (now : Time) :
    Call A I → Except String (AddrBook A I K × Option (AddrBookError A))
  | .addOurAddress addr => pure ({ s with ourAddrs := env.str addr :: s.ourAddrs }, none)
  | .addPrivateIDs ids => pure ({ s with privateIDs := ids.reverse ++ s.privateIDs }, none)
  | .addAddress addr src draw => s.addAddress env addr src draw now
  | .removeAddress addr => pure (s.removeAddress env addr, none)
  | .markGood id => (·, none) <$> s.markGood env id now
  | .markAttempt addr => pure (s.markAttempt env addr now, none)
  | .markBad addr banTime => pure (s.markBad env addr banTime now, none)
  | .reinstateBadPeers => (·, none) <$> s.reinstateBadPeers env now

/-- A run of calls, each at its own time; a panic stops it. -/
def run (s : AddrBook A I K) : List (Time × Call A I) → Except String (AddrBook A I K)
  | [] => pure s
  | (now, c) :: cs => s.step env now c >>= fun r ↦ r.1.run cs

end AddrBook

end Tenderdash.Pex
