import Tenderdash.Types.Basic
import Tenderdash.Lib.Int64
import Tenderdash.Lib.Except
import Mathlib.Data.List.Nodup
import Mathlib.Algebra.Order.BigOperators.Group.List

/-!
# The mempool

`mempool/clist_mempool.go`: the list of checked transactions in arrival order,
the map from a transaction's key to its list element, the running count of
their bytes, and the cache of keys seen.  `CheckTx` sends a transaction to the
application; its response is processed later by `resCbFirstTime`, which adds
the transaction.  `Update` removes the committed transactions and may send the
rest to be checked again; each recheck response goes through `resCbRecheck`.

## What the model keeps

A `clist.CElement` is identified by a number, fresh for each element, and the
list is `txs`, front first.  `TxKey` (SHA-256 of the transaction) is a function
`txKey` into any key type.  The requests sent to the application are queued
with the state: `pending` for `CheckTx` requests, whose responses arrive in the
order they were sent, and `recheck` for the elements `recheckTxs` sent, each
with its transaction.  Go matches a recheck response with `recheckCursor`,
which walks the live list; that is the element the request was sent for as
long as no other call removes elements while the recheck runs, and here it is
always that element.  The write-ahead log, the application connection's own
errors, the metrics, the logger and the `txsAvailable` channel are left out.

## The results

Over every run from a new mempool, `Inv` holds: element identities are
distinct, every key in `txsMap` points to a live element whose transaction has
that key, `txsBytes` is the sum of the lengths of the listed transactions, and
both limits of the configuration hold (`run_inv`).  What does not hold is that
the list has one element per key: the cache is what keeps a transaction from
being added twice, and with `CacheSize = 0` it is `nopTxCache`, which accepts
every transaction (`checkTx_resubmitted_duplicates`).

`ReapMaxBytesMaxGas` returns the longest prefix of the list before the first
transaction that breaks a limit (`reapMaxBytesMaxGas_spec`).  `ReapMaxTxs`
tests `len(txs) <= max` before it appends, so it returns one transaction more
than asked for (`reapMaxTxs_eq_take`).
-/

namespace Tenderdash.Mempool

/-- `types.Tx`. -/
abbrev Tx := Bytes

/-- `cfg.MempoolConfig`, the fields the mempool reads. -/
structure MempoolConfig where
  size : ℤ
  maxTxsBytes : ℤ
  maxTxBytes : ℤ
  cacheSize : ℤ
  keepInvalidTxsInCache : Bool
  recheck : Bool
deriving DecidableEq, Repr

/-- The errors `CheckTx` returns (`mempool/errors.go`). -/
inductive MempoolError where
  | mempoolIsFull (numTxs maxTxs txsBytes maxTxsBytes : ℤ)
  | txTooLarge (max actual : ℤ)
  | preCheck (reason : String)
  | txInCache
deriving DecidableEq, Repr

/-- The errors' `Error()` texts. -/
def MempoolError.message : MempoolError → String
  | mempoolIsFull numTxs maxTxs txsBytes maxTxsBytes =>
    s!"mempool is full: number of txs {numTxs} (max: {maxTxs}), total txs bytes {txsBytes} (max: {maxTxsBytes})"
  | txTooLarge max actual => s!"Tx too large. Max size is {max}, but got {actual}"
  | preCheck reason => reason
  | txInCache => "tx already exists in cache"

/-- `abci.ResponseCheckTx`, the fields the mempool reads. -/
structure ResponseCheckTx where
  code : UInt32
  gasWanted : ℤ
deriving DecidableEq, Repr

/-- `abci.CodeTypeOK`. -/
def codeTypeOK : UInt32 := 0

/-- `mempoolTx`: the height it was checked at, its gas and the peers that sent it. -/
structure MempoolTx where
  height : ℤ
  gasWanted : ℤ
  tx : Tx
  senders : List UInt16
deriving DecidableEq, Repr

/-- `txCache`: `nopTxCache`, or `mapTxCache` with its capacity and its keys,
least recently used first. -/
inductive TxCache (κ : Type) where
  | nop
  | map (size : ℤ) (list : List κ)
deriving DecidableEq, Repr

section Model

variable {κ : Type} [DecidableEq κ] (txKey : Tx → κ)

namespace TxCache

/-- `Push`: `false` for a key already cached, which becomes the most recent;
otherwise the key is added, after the oldest when the cache is full. -/
def push (tx : Tx) : TxCache κ → TxCache κ × Bool
  | nop => (nop, true)
  | map size list =>
    let key := txKey tx
    if key ∈ list then (map size (list.erase key ++ [key]), false)
    else
      let list := if size ≤ list.length then list.drop 1 else list
      (map size (list ++ [key]), true)

/-- `Remove`. -/
def remove (tx : Tx) : TxCache κ → TxCache κ
  | nop => nop
  | map size list => map size (list.erase (txKey tx))

/-- `Reset`. -/
def reset : TxCache κ → TxCache κ
  | nop => nop
  | map size _ => map size []

end TxCache

/-- `CListMempool`, with the requests it has sent to the application. -/
structure CListMempool (κ : Type) where
  config : MempoolConfig
  height : ℤ
  txs : List (ℕ × MempoolTx)
  txsMap : κ → Option ℕ
  txsBytes : ℤ
  cache : TxCache κ
  nextElem : ℕ
  preCheck : Option (Tx → Option String)
  postCheck : Option (Tx → ResponseCheckTx → Option String)
  pending : List (Tx × UInt16)
  recheck : List (ℕ × Tx)

/-- `NewCListMempool` without options: the cache is `nopTxCache` unless
`CacheSize` is positive. -/
def newCListMempool (config : MempoolConfig) (height : ℤ) : CListMempool κ where
  config := config
  height := height
  txs := []
  txsMap := fun _ ↦ none
  txsBytes := 0
  cache := if 0 < config.cacheSize then .map config.cacheSize [] else .nop
  nextElem := 0
  preCheck := none
  postCheck := none
  pending := []
  recheck := []

/-- `CList.Remove`, which panics on an element that is not in the list. -/
def clistRemove (txs : List (ℕ × MempoolTx)) (e : ℕ) : Except String (List (ℕ × MempoolTx)) :=
  if txs = [] then throw "Remove(e) on empty CList"
  else if txs.any (·.1 == e) then pure (txs.filter (·.1 != e))
  else throw "Remove(e) with false head"

namespace CListMempool

variable (mem : CListMempool κ)

/-- `Size`. -/
def size : ℕ := mem.txs.length

/-- The transaction held by a live element. -/
def element (e : ℕ) : Option MempoolTx := (mem.txs.find? (·.1 == e)).map (·.2)

/-- `isFull`. -/
def isFull (txSize : ℕ) : Option MempoolError :=
  if mem.config.size ≤ mem.size ∨ mem.config.maxTxsBytes < txSize + mem.txsBytes then
    some (.mempoolIsFull mem.size mem.config.size mem.txsBytes mem.config.maxTxsBytes)
  else none

/-- `addTx`: a new element at the back, mapped from the transaction's key. -/
def addTx (memTx : MempoolTx) : CListMempool κ :=
  { mem with
    txs := mem.txs ++ [(mem.nextElem, memTx)]
    txsMap := Function.update mem.txsMap (txKey memTx.tx) (some mem.nextElem)
    txsBytes := mem.txsBytes + memTx.tx.length
    nextElem := mem.nextElem + 1 }

/-- `removeTx`: the element leaves the list, and the key of the transaction
passed in leaves the map. -/
def removeTx (tx : Tx) (e : ℕ) (removeFromCache : Bool) : Except String (CListMempool κ) := do
  let txs ← clistRemove mem.txs e
  pure { mem with
    txs := txs
    txsMap := Function.update mem.txsMap (txKey tx) none
    txsBytes := mem.txsBytes - tx.length
    cache := if removeFromCache then mem.cache.remove txKey tx else mem.cache }

/-- `RemoveTxByKey`.  An element that the map names but that is not live
would make `CList.Remove` panic; `Inv` rules it out. -/
def removeTxByKey (key : κ) (removeFromCache : Bool) : Except String (CListMempool κ) :=
  match mem.txsMap key with
  | none => pure mem
  | some e =>
    match mem.element e with
    | some memTx => mem.removeTx txKey memTx.tx e removeFromCache
    | none => (clistRemove mem.txs e).map fun _ ↦ mem

/-- `memTx.senders.LoadOrStore(senderID, true)` on the element `e`. -/
def recordSender (e : ℕ) (senderID : UInt16) (txs : List (ℕ × MempoolTx)) :
    List (ℕ × MempoolTx) :=
  txs.map fun p ↦
    if p.1 = e ∧ senderID ∉ p.2.senders then (p.1, { p.2 with senders := p.2.senders ++ [senderID] })
    else p

/-- `CheckTx`: the limits, the pre-check and the cache, then the request to
the application.  A transaction already cached is refused, after its sender is
recorded if the transaction is still in the list. -/
def checkTx (tx : Tx) (senderID : UInt16) : CListMempool κ × Except MempoolError Unit :=
  match mem.isFull tx.length with
  | some err => (mem, .error err)
  | none =>
    if mem.config.maxTxBytes < tx.length then
      (mem, .error (.txTooLarge mem.config.maxTxBytes tx.length))
    else
      match mem.preCheck.bind fun f ↦ f tx with
      | some reason => (mem, .error (.preCheck reason))
      | none =>
        match mem.cache.push txKey tx with
        | (cache, false) =>
          let txs := match mem.txsMap (txKey tx) with
            | some e => recordSender e senderID mem.txs
            | none => mem.txs
          ({ mem with cache := cache, txs := txs }, .error .txInCache)
        | (cache, true) => ({ mem with cache := cache, pending := mem.pending ++ [(tx, senderID)] }, .ok ())

/-- `resCbFirstTime`: a transaction the application accepts is added unless
the mempool filled up meanwhile; it is never looked up in `txsMap`. -/
def resCbFirstTime (tx : Tx) (peerID : UInt16) (r : ResponseCheckTx) : CListMempool κ :=
  let postCheckErr := mem.postCheck.bind fun f ↦ f tx r
  if r.code = codeTypeOK ∧ postCheckErr = none then
    match mem.isFull tx.length with
    | some _ => { mem with cache := mem.cache.remove txKey tx }
    | none => mem.addTx txKey ⟨mem.height, r.gasWanted, tx, [peerID]⟩
  else if mem.config.keepInvalidTxsInCache then mem
  else { mem with cache := mem.cache.remove txKey tx }

/-- `resCbRecheck`, called by `globalCb` while a recheck runs: a transaction
that is no longer valid is removed. -/
def resCbRecheck (r : ResponseCheckTx) : Except String (CListMempool κ) :=
  match mem.recheck with
  | [] => pure mem
  | (e, tx) :: rest =>
    let postCheckErr := mem.postCheck.bind fun f ↦ f tx r
    let checked := if r.code = codeTypeOK ∧ postCheckErr = none then pure mem
      else mem.removeTx txKey tx e !mem.config.keepInvalidTxsInCache
    checked.map fun mem ↦ { mem with recheck := rest }

/-- `recheckTxs`: every element is sent to be checked again. -/
def recheckTxs : CListMempool κ := { mem with recheck := mem.txs.map fun p ↦ (p.1, p.2.tx) }

/-- `Flush`. -/
def flush : CListMempool κ :=
  { mem with txsBytes := 0, cache := mem.cache.reset, txs := [], txsMap := fun _ ↦ none }

end CListMempool

/-- The loop of `Update` over the committed transactions and their response
codes: the cache is updated, and a transaction in the map is removed. -/
def updateLoop : CListMempool κ → List (Tx × UInt32) → Except String (CListMempool κ)
  | mem, [] => pure mem
  | mem, (tx, code) :: rest =>
    let cache := if code = codeTypeOK then (mem.cache.push txKey tx).1
      else if mem.config.keepInvalidTxsInCache then mem.cache
      else mem.cache.remove txKey tx
    let mem : CListMempool κ := { mem with cache := cache }
    let removed := match mem.txsMap (txKey tx) with
      | some e => mem.removeTx txKey tx e false
      | none => pure mem
    removed >>= fun mem ↦ updateLoop mem rest

/-- `Update`: a response code per committed transaction (a missing one is
an index out of range), then a recheck of what is left when enabled. -/
def CListMempool.update (mem : CListMempool κ) (height : ℤ) (txs : List Tx) (codes : List UInt32)
    (preCheck : Option (Tx → Option String))
    (postCheck : Option (Tx → ResponseCheckTx → Option String)) :
    Except String (CListMempool κ) := do
  if codes.length < txs.length then throw "index out of range"
  let mem : CListMempool κ :=
    { mem with height := height, preCheck := preCheck.or mem.preCheck,
               postCheck := postCheck.or mem.postCheck }
  let mem ← updateLoop txKey mem (txs.zip codes)
  pure (if 0 < mem.size ∧ mem.config.recheck then mem.recheckTxs else mem)

/-! ## Reaping -/

/-- `sovTypes`, the length of a varint: `(bits.Len64(x|1) + 6) / 7`. -/
def sovTypes (x : ℕ) : ℕ := (Nat.log2 (x ||| 1) + 1 + 6) / 7

/-- `types.ComputeProtoSizeForTxs`: the size of `tmproto.Data` holding the
transactions, a tag, a length and the bytes for each. -/
def computeProtoSizeForTxs (txs : List Tx) : ℤ :=
  (txs.map fun b ↦ (1 + b.length + sovTypes b.length : ℤ)).sum

/-- The loop of `ReapMaxBytesMaxGas`, with the gas so far and the
transactions taken so far; the gas sum is an `int64`. -/
def reapMaxBytesMaxGasLoop (maxBytes maxGas : ℤ) : ℤ → List Tx → List MempoolTx → List Tx
  | _, txs, [] => txs
  | totalGas, txs, memTx :: rest =>
    let dataSize := computeProtoSizeForTxs (txs ++ [memTx.tx])
    if -1 < maxBytes ∧ maxBytes < dataSize then txs
    else
      let newTotalGas := I64.wrap (totalGas + memTx.gasWanted)
      if -1 < maxGas ∧ maxGas < newTotalGas then txs
      else reapMaxBytesMaxGasLoop maxBytes maxGas newTotalGas (txs ++ [memTx.tx]) rest

/-- `ReapMaxBytesMaxGas`. -/
def CListMempool.reapMaxBytesMaxGas (mem : CListMempool κ) (maxBytes maxGas : ℤ) : List Tx :=
  reapMaxBytesMaxGasLoop maxBytes maxGas 0 [] (mem.txs.map (·.2))

/-- The loop of `ReapMaxTxs`, whose guard `len(txs) <= max` is tested before
each append. -/
def reapMaxTxsLoop (max : ℤ) : List Tx → List MempoolTx → List Tx
  | txs, [] => txs
  | txs, memTx :: rest =>
    if (txs.length : ℤ) ≤ max then reapMaxTxsLoop max (txs ++ [memTx.tx]) rest else txs

/-- `ReapMaxTxs`: a negative `max` stands for the whole list. -/
def CListMempool.reapMaxTxs (mem : CListMempool κ) (max : ℤ) : List Tx :=
  let max := if max < 0 then (mem.size : ℤ) else max
  reapMaxTxsLoop max [] (mem.txs.map (·.2))

/-! ## Runs -/

/-- The calls and callbacks of the mempool, one at a time. -/
inductive Event (κ : Type) where
  | checkTx (tx : Tx) (senderID : UInt16)
  | respond (r : ResponseCheckTx)
  | update (height : ℤ) (txs : List Tx) (codes : List UInt32)
      (preCheck : Option (Tx → Option String))
      (postCheck : Option (Tx → ResponseCheckTx → Option String))
  | recheckResponse (r : ResponseCheckTx)
  | removeTxByKey (key : κ) (removeFromCache : Bool)
  | flush

/-- One event.  `respond` is the application's answer to the oldest pending
`CheckTx` request, through `reqResCb`; `recheckResponse` is an answer to a
recheck request, through `globalCb`. -/
def step (mem : CListMempool κ) : Event κ → Except String (CListMempool κ)
  | .checkTx tx senderID => pure (mem.checkTx txKey tx senderID).1
  | .respond r =>
    match mem.pending with
    | [] => pure mem
    | (tx, peerID) :: rest =>
      if mem.recheck.isEmpty then pure ({ mem with pending := rest }.resCbFirstTime txKey tx peerID r)
      else throw "recheck cursor is not nil in reqResCb"
  | .update height txs codes preCheck postCheck => mem.update txKey height txs codes preCheck postCheck
  | .recheckResponse r => mem.resCbRecheck txKey r
  | .removeTxByKey key removeFromCache => mem.removeTxByKey txKey key removeFromCache
  | .flush => pure mem.flush

/-- A run of events; a panic ends it. -/
def run : CListMempool κ → List (Event κ) → Except String (CListMempool κ)
  | mem, [] => pure mem
  | mem, ev :: evs => do run (← step txKey mem ev) evs

end Model

/-! ## The list operations -/

section Elements

/-- Removing the element `e` from a list of distinct elements takes its
transaction's length off the sum. -/
theorem sum_filter_ne_add {f : ℕ × MempoolTx → ℤ} :
    ∀ {txs : List (ℕ × MempoolTx)}, (txs.map (·.1)).Nodup → ∀ {e : ℕ} {m : MempoolTx},
      (e, m) ∈ txs → ((txs.filter (·.1 != e)).map f).sum + f (e, m) = (txs.map f).sum
  | [], _, _, _, hm => absurd hm List.not_mem_nil
  | (a, b) :: txs, hnd, e, m, hm => by
    rw [List.map_cons, List.nodup_cons] at hnd
    by_cases hae : a = e
    · subst hae
      have hkeep : txs.filter (·.1 != a) = txs := by
        rw [List.filter_eq_self]
        intro p hp
        have hpa : p.1 ≠ a := fun h ↦ hnd.1 (List.mem_map.mpr ⟨p, hp, h⟩)
        simpa using hpa
      have hb : b = m := by
        rcases List.mem_cons.mp hm with h | h
        · exact (Prod.mk.inj h).2.symm
        · exact absurd (List.mem_map_of_mem (f := (·.1)) h) hnd.1
      subst hb
      simp [hkeep, Int.add_comm]
    · have hm' : (e, m) ∈ txs := by
        rcases List.mem_cons.mp hm with h | h
        · exact absurd (Prod.mk.inj h).1.symm hae
        · exact h
      have ih := sum_filter_ne_add (f := f) hnd.2 hm'
      simp [hae, ← ih]
      omega

/-- Two entries of a list of distinct elements with the same identity agree. -/
theorem eq_of_mem_of_nodup {txs : List (ℕ × MempoolTx)} (hnd : (txs.map (·.1)).Nodup) {e : ℕ}
    {m m' : MempoolTx} (hm : (e, m) ∈ txs) (hm' : (e, m') ∈ txs) : m = m' := by
  have h := List.inj_on_of_nodup_map hnd hm hm' rfl
  exact (Prod.mk.inj h).2

theorem clistRemove_eq_ok {txs txs' : List (ℕ × MempoolTx)} {e : ℕ}
    (h : clistRemove txs e = .ok txs') : (∃ m, (e, m) ∈ txs) ∧ txs' = txs.filter (·.1 != e) := by
  unfold clistRemove at h
  split at h
  · cases h
  · split at h
    · rename_i hany
      obtain ⟨p, hp, hpe⟩ := List.any_eq_true.mp hany
      have hpe : p.1 = e := by simpa using hpe
      refine ⟨⟨p.2, ?_⟩, (Except.ok.inj h).symm⟩
      rw [← hpe]
      exact hp
    · cases h

theorem element_eq_some {mem : CListMempool κ} {e : ℕ} {memTx : MempoolTx}
    (h : mem.element e = some memTx) : (e, memTx) ∈ mem.txs := by
  unfold CListMempool.element at h
  obtain ⟨p, hp, rfl⟩ := Option.map_eq_some_iff.mp h
  have hpe : p.1 = e := by simpa using List.find?_some hp
  rw [← hpe]
  exact List.mem_of_find?_eq_some hp

end Elements

/-! ## The invariant -/

section Invariant

variable {κ : Type} [DecidableEq κ] (txKey : Tx → κ)

/-- What holds of every state a run reaches from a new mempool. -/
structure Inv (mem : CListMempool κ) : Prop where
  nodup : (mem.txs.map (·.1)).Nodup
  fresh : ∀ p ∈ mem.txs, p.1 < mem.nextElem
  txsMap_live : ∀ k e, mem.txsMap k = some e → ∃ m, (e, m) ∈ mem.txs ∧ txKey m.tx = k
  recheck_tx : ∀ p ∈ mem.recheck, ∀ m, (p.1, m) ∈ mem.txs → m.tx = p.2
  recheck_fresh : ∀ p ∈ mem.recheck, p.1 < mem.nextElem
  txsBytes_eq : mem.txsBytes = (mem.txs.map fun p ↦ (p.2.tx.length : ℤ)).sum
  size_le : (mem.size : ℤ) ≤ mem.config.size
  txsBytes_le : mem.txsBytes ≤ mem.config.maxTxsBytes

variable {txKey} {mem mem' : CListMempool κ}

omit [DecidableEq κ] in
/-- The invariant reads only the list, the map, the counters, the recheck
queue and the configuration. -/
theorem Inv.congr (hinv : Inv txKey mem) (hconfig : mem'.config = mem.config)
    (htxs : mem'.txs = mem.txs) (hmap : mem'.txsMap = mem.txsMap)
    (hbytes : mem'.txsBytes = mem.txsBytes) (hnext : mem'.nextElem = mem.nextElem)
    (hrecheck : mem'.recheck = mem.recheck) : Inv txKey mem' := by
  obtain ⟨h₁, h₂, h₃, h₄, h₅, h₆, h₇, h₈⟩ := hinv
  unfold CListMempool.size at h₇
  exact ⟨htxs ▸ h₁, htxs ▸ hnext ▸ h₂, hmap ▸ htxs ▸ h₃, hrecheck ▸ htxs ▸ h₄,
    hrecheck ▸ hnext ▸ h₅, hbytes ▸ htxs ▸ h₆, by unfold CListMempool.size; rw [htxs, hconfig]; exact h₇,
    hbytes ▸ hconfig ▸ h₈⟩

omit [DecidableEq κ] in
theorem Inv.setCache (hinv : Inv txKey mem) (cache : TxCache κ) : Inv txKey { mem with cache := cache } :=
  hinv.congr rfl rfl rfl rfl rfl rfl

omit [DecidableEq κ] in
theorem Inv.setPending (hinv : Inv txKey mem) (pending : List (Tx × UInt16)) :
    Inv txKey { mem with pending := pending } :=
  hinv.congr rfl rfl rfl rfl rfl rfl

omit [DecidableEq κ] in
theorem Inv.txsBytes_nonneg (hinv : Inv txKey mem) : 0 ≤ mem.txsBytes := by
  rw [hinv.txsBytes_eq]
  apply List.sum_nonneg
  simp only [List.mem_map]
  rintro _ ⟨p, -, rfl⟩
  exact Int.natCast_nonneg _

omit [DecidableEq κ] in
/-- The limits hold of the configuration itself. -/
theorem Inv.config_nonneg (hinv : Inv txKey mem) : 0 ≤ mem.config.size ∧ 0 ≤ mem.config.maxTxsBytes :=
  ⟨le_trans (Int.natCast_nonneg _) hinv.size_le, le_trans hinv.txsBytes_nonneg hinv.txsBytes_le⟩

omit [DecidableEq κ] in
theorem inv_newCListMempool {config : MempoolConfig} (hsize : 0 ≤ config.size)
    (hbytes : 0 ≤ config.maxTxsBytes) (height : ℤ) :
    Inv txKey (newCListMempool config height : CListMempool κ) where
  nodup := List.nodup_nil
  fresh := by simp [newCListMempool]
  txsMap_live := by simp [newCListMempool]
  recheck_tx := by simp [newCListMempool]
  recheck_fresh := by simp [newCListMempool]
  txsBytes_eq := rfl
  size_le := hsize
  txsBytes_le := hbytes

/-- `addTx` after `isFull` found room. -/
theorem Inv.addTx (hinv : Inv txKey mem) {memTx : MempoolTx}
    (hfull : mem.isFull memTx.tx.length = none) : Inv txKey (mem.addTx txKey memTx) := by
  have hroom : ¬ (mem.config.size ≤ mem.size ∨ mem.config.maxTxsBytes < memTx.tx.length + mem.txsBytes) := by
    intro h
    simp [CListMempool.isFull, h] at hfull
  have hnew : mem.nextElem ∉ mem.txs.map (·.1) := by
    intro h
    obtain ⟨p, hp, hpe⟩ := List.mem_map.mp h
    exact absurd (hinv.fresh p hp) (by omega)
  constructor
  case nodup =>
    simp only [CListMempool.addTx, List.map_append, List.map_cons, List.map_nil]
    simp only [List.nodup_append, hinv.nodup, List.nodup_singleton, List.mem_singleton, true_and]
    intro a ha b hb hab
    subst hb hab
    exact hnew ha
  case fresh =>
    intro p hp
    rcases List.mem_append.mp hp with hp | hp
    · exact Nat.lt_succ_of_lt (hinv.fresh p hp)
    · simp at hp
      simp [CListMempool.addTx, hp]
  case txsMap_live =>
    intro k e he
    by_cases hk : k = txKey memTx.tx
    · subst hk
      simp only [CListMempool.addTx, Function.update_self, Option.some.injEq] at he
      exact ⟨memTx, by simp [CListMempool.addTx, he], rfl⟩
    · simp only [CListMempool.addTx, Function.update_of_ne hk] at he
      obtain ⟨m, hm, hmk⟩ := hinv.txsMap_live k e he
      exact ⟨m, List.mem_append_left _ hm, hmk⟩
  case recheck_tx =>
    intro p hp m hm
    rcases List.mem_append.mp hm with hm | hm
    · exact hinv.recheck_tx p hp m hm
    · have hpe : p.1 = mem.nextElem := (Prod.mk.inj (List.mem_singleton.mp hm)).1
      exact absurd (hinv.recheck_fresh p hp) (by omega)
  case recheck_fresh => exact fun p hp ↦ Nat.lt_succ_of_lt (hinv.recheck_fresh p hp)
  case txsBytes_eq => simp [CListMempool.addTx, hinv.txsBytes_eq]
  case size_le =>
    have := hinv.size_le
    simp only [CListMempool.size, CListMempool.addTx, List.length_append, List.length_singleton] at this ⊢
    simp only [CListMempool.size, not_or, not_le, not_lt] at hroom
    omega
  case txsBytes_le =>
    simp only [not_or, not_le, not_lt] at hroom
    simp only [CListMempool.addTx]
    omega

/-- `removeTx` of a transaction held by the element it names. -/
theorem Inv.removeTx (hinv : Inv txKey mem) {tx : Tx} {e : ℕ} {flag : Bool}
    (htx : ∀ m, (e, m) ∈ mem.txs → m.tx = tx) (h : mem.removeTx txKey tx e flag = .ok mem') :
    Inv txKey mem' := by
  unfold CListMempool.removeTx at h
  obtain ⟨txs, htxs, h⟩ := Except.bind_eq_ok.mp h
  obtain ⟨⟨m, hm⟩, rfl⟩ := clistRemove_eq_ok htxs
  cases h
  have hsub : (mem.txs.filter (·.1 != e)).Sublist mem.txs := List.filter_sublist
  have hmtx := htx m hm
  constructor
  case nodup => exact (hinv.nodup.sublist (hsub.map _))
  case fresh => exact fun p hp ↦ hinv.fresh p (hsub.subset hp)
  case txsMap_live =>
    intro k e' he'
    by_cases hk : k = txKey tx
    · simp [hk] at he'
    · simp only [Function.update_of_ne hk] at he'
      obtain ⟨m', hm', hmk⟩ := hinv.txsMap_live k e' he'
      have hne : e' ≠ e := by
        rintro rfl
        exact hk (hmk ▸ hmtx ▸ congrArg (txKey ·.tx) (eq_of_mem_of_nodup hinv.nodup hm' hm))
      exact ⟨m', List.mem_filter.mpr ⟨hm', by simpa using hne⟩, hmk⟩
  case recheck_tx => exact fun p hp m' hm' ↦ hinv.recheck_tx p hp m' (hsub.subset hm')
  case recheck_fresh => exact hinv.recheck_fresh
  case txsBytes_eq =>
    have hsum := sum_filter_ne_add (f := fun p ↦ (p.2.tx.length : ℤ)) hinv.nodup hm
    simp only at hsum ⊢
    rw [hinv.txsBytes_eq, ← hsum, hmtx]
    omega
  case size_le =>
    have hlen := hsub.length_le
    have := hinv.size_le
    unfold CListMempool.size at this ⊢
    simp only at this ⊢
    omega
  case txsBytes_le =>
    have := hinv.txsBytes_le
    simp only
    omega

omit [DecidableEq κ] in
/-- A map over the elements that keeps each identity and transaction, such
as recording a sender, keeps the invariant. -/
theorem Inv.map_txs (hinv : Inv txKey mem) (f : ℕ × MempoolTx → ℕ × MempoolTx)
    (hid : ∀ p, (f p).1 = p.1) (htx : ∀ p, (f p).2.tx = p.2.tx) :
    Inv txKey { mem with txs := mem.txs.map f } := by
  have hids : (mem.txs.map f).map (·.1) = mem.txs.map (·.1) := by simp [Function.comp_def, hid]
  have hmem : ∀ q ∈ mem.txs, (q.1, (f q).2) ∈ mem.txs.map f := fun q hq ↦ by
    have h := List.mem_map_of_mem (f := f) hq
    rwa [← hid q]
  constructor
  case nodup => exact hids ▸ hinv.nodup
  case fresh =>
    intro p hp
    obtain ⟨q, hq, rfl⟩ := List.mem_map.mp hp
    exact hid q ▸ hinv.fresh q hq
  case txsMap_live =>
    intro k e he
    obtain ⟨m, hm, hmk⟩ := hinv.txsMap_live k e he
    exact ⟨(f (e, m)).2, hmem (e, m) hm, by rw [htx]; exact hmk⟩
  case recheck_tx =>
    intro p hp m hm
    obtain ⟨q, hq, hqe⟩ := List.mem_map.mp hm
    have hq1 : q.1 = p.1 := by rw [← hid q, hqe]
    have hq2 : (f q).2 = m := by rw [hqe]
    rw [← hq2, htx]
    exact hinv.recheck_tx p hp q.2 (hq1 ▸ hq)
  case recheck_fresh => exact hinv.recheck_fresh
  case txsBytes_eq => simpa [Function.comp_def, htx] using hinv.txsBytes_eq
  case size_le => simpa [CListMempool.size] using hinv.size_le
  case txsBytes_le => exact hinv.txsBytes_le

omit [DecidableEq κ] in
/-- Recording a sender changes no identity and no transaction. -/
theorem Inv.recordSender (hinv : Inv txKey mem) (e : ℕ) (senderID : UInt16) :
    Inv txKey { mem with txs := CListMempool.recordSender e senderID mem.txs } :=
  hinv.map_txs _ (fun p ↦ by by_cases h : p.1 = e ∧ senderID ∉ p.2.senders <;> simp [h])
    (fun p ↦ by by_cases h : p.1 = e ∧ senderID ∉ p.2.senders <;> simp [h])

/-- `CheckTx` changes the cache, the pending requests and the senders of an
element only. -/
theorem Inv.checkTx (hinv : Inv txKey mem) (tx : Tx) (senderID : UInt16) :
    Inv txKey (mem.checkTx txKey tx senderID).1 := by
  unfold CListMempool.checkTx
  split
  · exact hinv
  · split
    · exact hinv
    · split
      · exact hinv
      · rcases hpush : mem.cache.push txKey tx with ⟨cache, _ | _⟩
        · dsimp only
          split
          · exact (hinv.recordSender _ senderID).congr rfl rfl rfl rfl rfl rfl
          · exact hinv.congr rfl rfl rfl rfl rfl rfl
        · exact hinv.congr rfl rfl rfl rfl rfl rfl

/-- `resCbFirstTime` adds the transaction only where `isFull` found room. -/
theorem Inv.resCbFirstTime (hinv : Inv txKey mem) (tx : Tx) (peerID : UInt16) (r : ResponseCheckTx) :
    Inv txKey (mem.resCbFirstTime txKey tx peerID r) := by
  unfold CListMempool.resCbFirstTime
  dsimp only
  split
  · rcases hfull : mem.isFull tx.length with _ | err
    · exact hinv.addTx hfull
    · exact hinv.congr rfl rfl rfl rfl rfl rfl
  · split
    · exact hinv
    · exact hinv.congr rfl rfl rfl rfl rfl rfl

omit [DecidableEq κ] in
/-- With keys that do not collide, an element the map finds for a
transaction's key holds that transaction. -/
theorem Inv.tx_of_txsMap (hinv : Inv txKey mem) (hinj : Function.Injective txKey) {tx : Tx} {e : ℕ}
    (he : mem.txsMap (txKey tx) = some e) : ∀ m, (e, m) ∈ mem.txs → m.tx = tx := by
  obtain ⟨m₀, hm₀, hk⟩ := hinv.txsMap_live _ e he
  intro m hm
  rw [eq_of_mem_of_nodup hinv.nodup hm hm₀]
  exact hinj hk

theorem Inv.updateLoop (hinj : Function.Injective txKey) {txs : List (Tx × UInt32)} :
    ∀ {mem mem' : CListMempool κ}, Inv txKey mem → updateLoop txKey mem txs = .ok mem' →
      Inv txKey mem' := by
  induction txs with
  | nil =>
    intro mem mem' hinv h
    cases h
    exact hinv
  | cons p rest ih =>
    intro mem mem' hinv h
    obtain ⟨tx, code⟩ := p
    simp only [Mempool.updateLoop] at h
    obtain ⟨mem₁, h₁, h₂⟩ := Except.bind_eq_ok.mp h
    refine ih ?_ h₂
    split at h₁
    · rename_i e he
      refine (hinv.setCache _).removeTx ?_ h₁
      exact hinv.tx_of_txsMap hinj he
    · cases h₁
      exact hinv.congr rfl rfl rfl rfl rfl rfl

omit [DecidableEq κ] in
theorem Inv.recheckTxs (hinv : Inv txKey mem) : Inv txKey mem.recheckTxs := by
  refine { hinv with recheck_tx := ?_, recheck_fresh := ?_ }
  · intro p hp m hm
    obtain ⟨q, hq, rfl⟩ := List.mem_map.mp hp
    rw [eq_of_mem_of_nodup hinv.nodup hm hq]
  · intro p hp
    obtain ⟨q, hq, rfl⟩ := List.mem_map.mp hp
    exact hinv.fresh q hq

theorem Inv.update (hinj : Function.Injective txKey) (hinv : Inv txKey mem) {height : ℤ}
    {txs : List Tx} {codes : List UInt32} {preCheck : Option (Tx → Option String)}
    {postCheck : Option (Tx → ResponseCheckTx → Option String)}
    (h : mem.update txKey height txs codes preCheck postCheck = .ok mem') : Inv txKey mem' := by
  unfold CListMempool.update at h
  split at h
  · cases h
  · obtain ⟨mem₁, h₁, h₂⟩ := Except.bind_eq_ok.mp h
    have hinv₀ : Inv txKey
        { mem with height := height, preCheck := preCheck.or mem.preCheck,
                   postCheck := postCheck.or mem.postCheck } :=
      hinv.congr rfl rfl rfl rfl rfl rfl
    have hinv₁ := hinv₀.updateLoop hinj h₁
    cases h₂
    split
    · exact hinv₁.recheckTxs
    · exact hinv₁

omit [DecidableEq κ] in
/-- Dropping the head of the recheck queue. -/
theorem Inv.dropRecheck (hinv : Inv txKey mem) {p : ℕ × Tx} {rest : List (ℕ × Tx)}
    (hp : mem.recheck = p :: rest) : Inv txKey { mem with recheck := rest } :=
  { hinv with
    recheck_tx := fun q hq ↦ hinv.recheck_tx q (by rw [hp]; exact List.mem_cons_of_mem p hq)
    recheck_fresh := fun q hq ↦ hinv.recheck_fresh q (by rw [hp]; exact List.mem_cons_of_mem p hq) }

theorem removeTx_eq_ok {tx : Tx} {e : ℕ} {flag : Bool}
    (h : mem.removeTx txKey tx e flag = .ok mem') :
    mem'.config = mem.config ∧ mem'.recheck = mem.recheck := by
  unfold CListMempool.removeTx at h
  obtain ⟨txs, -, h⟩ := Except.bind_eq_ok.mp h
  cases h
  exact ⟨rfl, rfl⟩

theorem Inv.resCbRecheck (hinv : Inv txKey mem) {r : ResponseCheckTx}
    (h : mem.resCbRecheck txKey r = .ok mem') : Inv txKey mem' := by
  unfold CListMempool.resCbRecheck at h
  split at h
  · cases h
    exact hinv
  · rename_i e tx rest hrecheck
    obtain ⟨mem₁, h₁, rfl⟩ := Except.map_eq_ok.mp h
    split at h₁
    · cases h₁
      exact hinv.dropRecheck hrecheck
    · have htx : ∀ m, (e, m) ∈ mem.txs → m.tx = tx := fun m hm ↦
        hinv.recheck_tx (e, tx) (by rw [hrecheck]; exact List.mem_cons_self) m hm
      have hinv₁ := hinv.removeTx htx h₁
      exact hinv₁.dropRecheck ((removeTx_eq_ok h₁).2.trans hrecheck)

theorem Inv.removeTxByKey (hinv : Inv txKey mem) {key : κ} {flag : Bool}
    (h : mem.removeTxByKey txKey key flag = .ok mem') : Inv txKey mem' := by
  unfold CListMempool.removeTxByKey at h
  split at h
  · cases h
    exact hinv
  · rename_i e he
    split at h
    · rename_i memTx hmemTx
      have hm := element_eq_some hmemTx
      exact hinv.removeTx (fun m hm' ↦ by rw [eq_of_mem_of_nodup hinv.nodup hm' hm]) h
    · obtain ⟨_, -, rfl⟩ := Except.map_eq_ok.mp h
      exact hinv

omit [DecidableEq κ] in
theorem Inv.flush (hinv : Inv txKey mem) : Inv txKey mem.flush where
  nodup := List.nodup_nil
  fresh := by simp [CListMempool.flush]
  txsMap_live := by simp [CListMempool.flush]
  recheck_tx := by simp [CListMempool.flush]
  recheck_fresh := hinv.recheck_fresh
  txsBytes_eq := rfl
  size_le := hinv.config_nonneg.1
  txsBytes_le := hinv.config_nonneg.2

/-- Every event keeps the invariant. -/
theorem Inv.step (hinj : Function.Injective txKey) (hinv : Inv txKey mem) {ev : Event κ}
    (h : step txKey mem ev = .ok mem') : Inv txKey mem' := by
  cases ev with
  | checkTx tx senderID =>
    cases h
    exact hinv.checkTx tx senderID
  | respond r =>
    simp only [Mempool.step] at h
    split at h
    · cases h
      exact hinv
    · rename_i tx peerID rest _
      split at h
      · cases h
        exact (hinv.setPending rest).resCbFirstTime tx peerID r
      · cases h
  | update height txs codes preCheck postCheck => exact hinv.update hinj h
  | recheckResponse r => exact hinv.resCbRecheck h
  | removeTxByKey key flag => exact hinv.removeTxByKey h
  | flush =>
    cases h
    exact hinv.flush

theorem Inv.run (hinj : Function.Injective txKey) {evs : List (Event κ)} :
    ∀ {mem mem' : CListMempool κ}, Inv txKey mem → run txKey mem evs = .ok mem' → Inv txKey mem' := by
  induction evs with
  | nil =>
    intro mem mem' hinv h
    cases h
    exact hinv
  | cons ev evs ih =>
    intro mem mem' hinv h
    obtain ⟨mem₁, h₁, h₂⟩ := Except.bind_eq_ok.mp h
    exact ih (hinv.step hinj h₁) h₂

/-- Over every run from a new mempool whose limits are not negative, with
keys that do not collide: the byte count is the sum of the listed
transactions' lengths, the limits hold, and `txsMap` points only to live
elements holding a transaction of that key. -/
theorem run_inv (hinj : Function.Injective txKey) {config : MempoolConfig} (hsize : 0 ≤ config.size)
    (hbytes : 0 ≤ config.maxTxsBytes) (height : ℤ) (evs : List (Event κ))
    (h : run txKey (newCListMempool config height) evs = .ok mem) : Inv txKey mem :=
  (inv_newCListMempool hsize hbytes height).run hinj h

/-- Two transactions sent and accepted under the default limits, then the first removed by
its key. -/
theorem run_inv_after_removeTxByKey :
    ∃ mem : CListMempool Tx,
      run id (newCListMempool ⟨5000, 1073741824, 1048576, 10000, false, true⟩ 1)
        [.checkTx [1] 1, .checkTx [2, 3] 2, .respond ⟨0, 0⟩, .respond ⟨0, 0⟩,
          .removeTxByKey [1] true] = .ok mem ∧
      mem.txs.map (·.2.tx) = [[2, 3]] ∧ Inv id mem := by
  obtain ⟨mem, hrun, htxs⟩ := Except.exists_eq_ok_of_toOption_map
    (show (run id (newCListMempool ⟨5000, 1073741824, 1048576, 10000, false, true⟩ 1)
        [.checkTx [1] 1, .checkTx [2, 3] 2, .respond ⟨0, 0⟩, .respond ⟨0, 0⟩,
          .removeTxByKey [1] true] : Except String (CListMempool Tx)).toOption.map
        (·.txs.map (·.2.tx)) = some [[2, 3]] by decide)
  exact ⟨mem, hrun, htxs, run_inv Function.injective_id (by decide) (by decide) 1 _ hrun⟩

end Invariant

/-! ## One element per key, without a cache -/

section Duplicates

variable {κ : Type} [DecidableEq κ] (txKey : Tx → κ) {mem : CListMempool κ}

/-- With `nopTxCache` and room for the transaction, `CheckTx` sends it to the
application whether or not it is listed already. -/
theorem checkTx_nop {tx : Tx} (senderID : UInt16) (hcache : mem.cache = .nop)
    (hfull : mem.isFull tx.length = none) (hlen : (tx.length : ℤ) ≤ mem.config.maxTxBytes)
    (hpre : mem.preCheck = none) :
    mem.checkTx txKey tx senderID = ({ mem with pending := mem.pending ++ [(tx, senderID)] }, .ok ()) := by
  have hlen' : ¬ mem.config.maxTxBytes < tx.length := by omega
  simp [CListMempool.checkTx, hfull, hlen', hpre, hcache, TxCache.push]

/-- An accepted response is added, without a look at `txsMap`, when there is room. -/
theorem resCbFirstTime_ok {tx : Tx} (peerID : UInt16) {r : ResponseCheckTx}
    (hok : r.code = codeTypeOK) (hpost : mem.postCheck = none) (hfull : mem.isFull tx.length = none) :
    mem.resCbFirstTime txKey tx peerID r = mem.addTx txKey ⟨mem.height, r.gasWanted, tx, [peerID]⟩ := by
  simp [CListMempool.resCbFirstTime, hok, hpost, hfull]

omit [DecidableEq κ] in
theorem isFull_eq_none {txSize : ℕ} (hsize : (mem.size : ℤ) < mem.config.size)
    (hbytes : txSize + mem.txsBytes ≤ mem.config.maxTxsBytes) : mem.isFull txSize = none := by
  have h : ¬ (mem.config.size ≤ mem.size ∨ mem.config.maxTxsBytes < txSize + mem.txsBytes) := by omega
  simp [CListMempool.isFull, h]

theorem step_checkTx {tx : Tx} {senderID : UInt16} :
    step txKey mem (.checkTx tx senderID) = .ok (mem.checkTx txKey tx senderID).1 := rfl

theorem step_respond {tx : Tx} {peerID : UInt16} {rest : List (Tx × UInt16)} {r : ResponseCheckTx}
    (hpending : mem.pending = (tx, peerID) :: rest) (hrecheck : mem.recheck = []) :
    step txKey mem (.respond r) = .ok ({ mem with pending := rest }.resCbFirstTime txKey tx peerID r) := by
  simp [step, hpending, hrecheck]

theorem run_cons {ev : Event κ} {evs : List (Event κ)} :
    run txKey mem (ev :: evs) = step txKey mem ev >>= fun mem ↦ run txKey mem evs := rfl

/-- With `CacheSize = 0`, the same transaction sent twice and accepted by the
application twice is listed twice, and `txsMap` points to the second element
only: once `RemoveTxByKey` has removed that one, the first is still listed
and its key is not in the map. -/
theorem checkTx_resubmitted_duplicates {config : MempoolConfig} (hcache : config.cacheSize ≤ 0)
    (hsize : 2 ≤ config.size) {tx : Tx} (hbytes : 2 * (tx.length : ℤ) ≤ config.maxTxsBytes)
    (hlen : (tx.length : ℤ) ≤ config.maxTxBytes) (height : ℤ) (s₁ s₂ : UInt16)
    {r₁ r₂ : ResponseCheckTx} (hok₁ : r₁.code = codeTypeOK) (hok₂ : r₂.code = codeTypeOK) :
    ∃ mem : CListMempool κ,
      run txKey (newCListMempool config height)
        [.checkTx tx s₁, .respond r₁, .checkTx tx s₂, .respond r₂] = .ok mem ∧
      mem.txs.map (·.2.tx) = [tx, tx] ∧
      ∃ mem', run txKey mem [.removeTxByKey (txKey tx) false] = .ok mem' ∧
        mem'.txs.map (·.2.tx) = [tx] ∧ mem'.txsMap (txKey tx) = none := by
  let mem₀ : CListMempool κ := newCListMempool config height
  have hnop : mem₀.cache = .nop := by
    have : ¬ 0 < config.cacheSize := by omega
    simp [mem₀, newCListMempool, this]
  have hfull₀ : mem₀.isFull tx.length = none :=
    isFull_eq_none (by simp [mem₀, newCListMempool, CListMempool.size]; omega)
      (by simp [mem₀, newCListMempool]; omega)
  let mem₁ := mem₀.addTx txKey ⟨height, r₁.gasWanted, tx, [s₁]⟩
  have e₁ : step txKey mem₀ (.checkTx tx s₁) = .ok { mem₀ with pending := [(tx, s₁)] } := by
    rw [step_checkTx, checkTx_nop txKey s₁ hnop hfull₀ hlen rfl]
    rfl
  have e₂ : step txKey { mem₀ with pending := [(tx, s₁)] } (.respond r₁) = .ok mem₁ := by
    rw [step_respond txKey rfl rfl]
    exact congrArg Except.ok (resCbFirstTime_ok txKey s₁ hok₁ rfl hfull₀)
  have hfull₁ : mem₁.isFull tx.length = none :=
    isFull_eq_none (by simp [mem₁, mem₀, newCListMempool, CListMempool.size, CListMempool.addTx]; omega)
      (by simp [mem₁, mem₀, newCListMempool, CListMempool.addTx]; omega)
  let mem₂ := mem₁.addTx txKey ⟨height, r₂.gasWanted, tx, [s₂]⟩
  have hnop₁ : mem₁.cache = .nop := hnop
  have e₃ : step txKey mem₁ (.checkTx tx s₂) = .ok { mem₁ with pending := [(tx, s₂)] } := by
    rw [step_checkTx, checkTx_nop txKey s₂ hnop₁ hfull₁ hlen rfl]
    rfl
  have e₄ : step txKey { mem₁ with pending := [(tx, s₂)] } (.respond r₂) = .ok mem₂ := by
    rw [step_respond txKey rfl rfl]
    exact congrArg Except.ok (resCbFirstTime_ok txKey s₂ hok₂ rfl hfull₁)
  refine ⟨mem₂, ?_, by simp [mem₂, mem₁, mem₀, newCListMempool, CListMempool.addTx], ?_⟩
  · rw [run_cons, e₁, Except.ok_bind, run_cons, e₂, Except.ok_bind, run_cons, e₃, Except.ok_bind,
      run_cons, e₄, Except.ok_bind]
    rfl
  · refine ⟨{ mem₂ with txs := mem₁.txs, txsMap := fun _ ↦ none, txsBytes := tx.length }, ?_, ?_, rfl⟩
    · simp [run, step, CListMempool.removeTxByKey, CListMempool.element, CListMempool.removeTx,
        clistRemove, mem₂, mem₁, mem₀, newCListMempool, CListMempool.addTx]
      rfl
    · simp [mem₁, mem₀, newCListMempool, CListMempool.addTx]

/-- Two copies of the one-byte transaction `[1]`, in a mempool with the
default limits and no cache. -/
theorem checkTx_resubmitted_duplicates_without_cache :
    ∃ mem : CListMempool Tx,
      run id (newCListMempool ⟨5000, 1073741824, 1048576, 0, false, true⟩ 1)
        [.checkTx [1] 1, .respond ⟨0, 0⟩, .checkTx [1] 2, .respond ⟨0, 0⟩] = .ok mem ∧
      mem.txs.map (·.2.tx) = [[1], [1]] ∧
      ∃ mem', run id mem [.removeTxByKey [1] false] = .ok mem' ∧
        mem'.txs.map (·.2.tx) = [[1]] ∧ mem'.txsMap [1] = none :=
  checkTx_resubmitted_duplicates id (by decide) (by decide) (by decide) (by decide) 1 1 2 rfl rfl

end Duplicates

/-! ## Reaping -/

section Reap

variable {κ : Type} {mem : CListMempool κ}

/-- The loop of `ReapMaxTxs` appends while fewer than `max + 1` transactions
are taken. -/
theorem reapMaxTxsLoop_eq (max : ℤ) {rest : List MempoolTx} :
    ∀ {txs : List Tx}, (txs.length : ℤ) ≤ max + 1 →
      reapMaxTxsLoop max txs rest = txs ++ (rest.map (·.tx)).take ((max + 1).toNat - txs.length) := by
  induction rest with
  | nil => intro txs _; simp [reapMaxTxsLoop]
  | cons memTx rest ih =>
    intro txs hlen
    by_cases hle : (txs.length : ℤ) ≤ max
    · have hnext : ((txs ++ [memTx.tx]).length : ℤ) ≤ max + 1 := by simp; omega
      have hk : (max + 1).toNat - txs.length = ((max + 1).toNat - (txs.length + 1)) + 1 := by omega
      rw [reapMaxTxsLoop, if_pos hle, ih hnext, hk]
      simp
    · have hk : (max + 1).toNat - txs.length = 0 := by omega
      rw [reapMaxTxsLoop, if_neg hle, hk]
      simp

/-- `ReapMaxTxs` with `max ≥ 0` returns the first `max + 1` transactions. -/
theorem reapMaxTxs_eq_take (mem : CListMempool κ) (max : ℤ) (hmax : 0 ≤ max) :
    mem.reapMaxTxs max = (mem.txs.map (·.2.tx)).take (max.toNat + 1) := by
  have hnot : ¬ max < 0 := by omega
  have hk : (max + 1).toNat - ([] : List Tx).length = max.toNat + 1 := by simp; omega
  simp only [CListMempool.reapMaxTxs, hnot, if_false]
  rw [reapMaxTxsLoop_eq max (by simp; omega), hk]
  simp [Function.comp_def]

/-- The mempool holding `[1]` and `[2]`. -/
def twoTxs : CListMempool Tx where
  config := ⟨5000, 1073741824, 1048576, 10000, false, true⟩
  height := 1
  txs := [(0, ⟨1, 0, [1], [1]⟩), (1, ⟨1, 0, [2], [1]⟩)]
  txsMap := fun tx ↦ if tx = [1] then some 0 else if tx = [2] then some 1 else none
  txsBytes := 2
  cache := .map 10000 [[1], [2]]
  nextElem := 2
  preCheck := none
  postCheck := none
  pending := []
  recheck := []

/-- `ReapMaxTxs(0)` on two transactions returns one. -/
theorem reapMaxTxs_zero_of_twoTxs : twoTxs.reapMaxTxs 0 = [[1]] := by
  rw [reapMaxTxs_eq_take twoTxs 0 le_rfl]
  rfl

/-- A prefix of the list within the limits `ReapMaxBytesMaxGas` checks; a
negative limit is not checked. -/
def Fits (maxBytes maxGas : ℤ) (txs : List MempoolTx) : Prop :=
  (-1 < maxBytes → computeProtoSizeForTxs (txs.map (·.tx)) ≤ maxBytes) ∧
  (-1 < maxGas → (txs.map (·.gasWanted)).sum ≤ maxGas)

/-- The loop of `ReapMaxBytesMaxGas` from a prefix `pre` already taken: while
the gas sums stay `int64`s, it stops before the first transaction whose
prefix breaks a limit. -/
theorem reapMaxBytesMaxGasLoop_spec (maxBytes maxGas : ℤ) (rest : List MempoolTx) :
    ∀ (pre : List MempoolTx),
      (∀ j ≤ rest.length, I64.InRange ((pre ++ rest.take j).map (·.gasWanted)).sum) →
      ∃ k ≤ rest.length,
        reapMaxBytesMaxGasLoop maxBytes maxGas (pre.map (·.gasWanted)).sum (pre.map (·.tx)) rest =
          (pre ++ rest.take k).map (·.tx) ∧
        (∀ j, 0 < j → j ≤ k → Fits maxBytes maxGas (pre ++ rest.take j)) ∧
        (k < rest.length → ¬ Fits maxBytes maxGas (pre ++ rest.take (k + 1))) := by
  induction rest with
  | nil => intro pre _; exact ⟨0, le_rfl, by simp [reapMaxBytesMaxGasLoop], by omega, by simp⟩
  | cons memTx rest ih =>
    intro pre hrange
    have hgas : I64.wrap ((pre.map (·.gasWanted)).sum + memTx.gasWanted) =
        ((pre ++ [memTx]).map (·.gasWanted)).sum := by
      have h := hrange 1 (by simp)
      simp only [List.take_succ_cons, List.take_zero] at h
      rw [I64.wrap_of_inRange (by simpa using h)]
      simp
    have hsize : computeProtoSizeForTxs (pre.map (·.tx) ++ [memTx.tx]) =
        computeProtoSizeForTxs ((pre ++ [memTx]).map (·.tx)) := by simp
    by_cases hbytes : -1 < maxBytes ∧ maxBytes < computeProtoSizeForTxs (pre.map (·.tx) ++ [memTx.tx])
    · refine ⟨0, by simp, by simp [reapMaxBytesMaxGasLoop, hbytes], by omega, fun _ hfit ↦ ?_⟩
      have := hfit.1 hbytes.1
      simp only [List.take_succ_cons, List.take_zero, ← hsize] at this
      omega
    · by_cases hgasle : -1 < maxGas ∧ maxGas < ((pre ++ [memTx]).map (·.gasWanted)).sum
      · refine ⟨0, by simp, ?_, by omega, fun _ hfit ↦ ?_⟩
        · simp only [reapMaxBytesMaxGasLoop, if_neg hbytes, hgas, if_pos hgasle, List.take_zero,
            List.append_nil]
        · have := hfit.2 hgasle.1
          simp only [List.take_succ_cons, List.take_zero] at this
          omega
      · have hrange' : ∀ j ≤ rest.length,
            I64.InRange (((pre ++ [memTx]) ++ rest.take j).map (·.gasWanted)).sum := fun j hj ↦ by
          simpa using hrange (j + 1) (by simp; omega)
        obtain ⟨k, hk, hloop, hfits, hstop⟩ := ih (pre ++ [memTx]) hrange'
        have hfit₁ : Fits maxBytes maxGas (pre ++ [memTx]) :=
          ⟨fun h ↦ by rw [← hsize]; omega, fun h ↦ by omega⟩
        refine ⟨k + 1, by simp; omega, ?_, ?_, ?_⟩
        · have hstep : reapMaxBytesMaxGasLoop maxBytes maxGas (pre.map (·.gasWanted)).sum
              (pre.map (·.tx)) (memTx :: rest) =
              reapMaxBytesMaxGasLoop maxBytes maxGas ((pre ++ [memTx]).map (·.gasWanted)).sum
                ((pre ++ [memTx]).map (·.tx)) rest := by
            simp only [reapMaxBytesMaxGasLoop, if_neg hbytes, hgas, if_neg hgasle]
            simp only [List.map_append, List.map_cons, List.map_nil]
          simpa [hstep] using hloop
        · intro j hj hjk
          rcases Nat.lt_or_ge 1 j with h | h
          · obtain ⟨i, rfl⟩ : ∃ i, j = i + 1 := ⟨j - 1, by omega⟩
            simpa using hfits i (by omega) (by omega)
          · obtain rfl : j = 1 := by omega
            simpa using hfit₁
        · intro hlt
          simpa using hstop (by simp at hlt; omega)

/-- `ReapMaxBytesMaxGas` returns the transactions before the first one whose
prefix breaks a limit, as long as the gas sums stay `int64`s. -/
theorem reapMaxBytesMaxGas_spec (mem : CListMempool κ) (maxBytes maxGas : ℤ)
    (hrange : ∀ j, I64.InRange (((mem.txs.map (·.2)).take j).map (·.gasWanted)).sum) :
    ∃ k ≤ mem.size,
      mem.reapMaxBytesMaxGas maxBytes maxGas = ((mem.txs.map (·.2)).take k).map (·.tx) ∧
      (∀ j ≤ k, Fits maxBytes maxGas ((mem.txs.map (·.2)).take j)) ∧
      (k < mem.size → ¬ Fits maxBytes maxGas ((mem.txs.map (·.2)).take (k + 1))) := by
  obtain ⟨k, hk, hloop, hfits, hstop⟩ :=
    reapMaxBytesMaxGasLoop_spec maxBytes maxGas (mem.txs.map (·.2)) [] (fun j _ ↦ by simpa using hrange j)
  refine ⟨k, by simpa [CListMempool.size] using hk, by simpa [CListMempool.reapMaxBytesMaxGas] using hloop,
    ?_, ?_⟩
  · intro j hj
    rcases Nat.eq_zero_or_pos j with rfl | hpos
    · exact ⟨fun h ↦ by simp [computeProtoSizeForTxs]; omega, fun h ↦ by simp; omega⟩
    · simpa using hfits j hpos hj
  · intro hlt
    simpa using hstop (by simpa [CListMempool.size] using hlt)

/-- With room for one transaction's bytes, the two transactions of no gas reap as the first. -/
theorem reapMaxBytesMaxGas_spec_twoTxs :
    (∀ j, I64.InRange (((twoTxs.txs.map (·.2)).take j).map (·.gasWanted)).sum) ∧
      twoTxs.reapMaxBytesMaxGas 3 (-1) = [[1]] ∧
      ∃ k ≤ twoTxs.size,
        twoTxs.reapMaxBytesMaxGas 3 (-1) = ((twoTxs.txs.map (·.2)).take k).map (·.tx) ∧
        (∀ j ≤ k, Fits 3 (-1) ((twoTxs.txs.map (·.2)).take j)) ∧
        (k < twoTxs.size → ¬ Fits 3 (-1) ((twoTxs.txs.map (·.2)).take (k + 1))) := by
  have hrange : ∀ j, I64.InRange (((twoTxs.txs.map (·.2)).take j).map (·.gasWanted)).sum := by
    intro j
    rcases j with _ | _ | j <;> simp [twoTxs] <;> decide
  exact ⟨hrange, by decide, reapMaxBytesMaxGas_spec twoTxs 3 (-1) hrange⟩

end Reap

end Tenderdash.Mempool
