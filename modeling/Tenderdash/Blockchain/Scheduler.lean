import Mathlib.Data.Int.Order.Basic
import Mathlib.Data.List.AList
import Mathlib.Data.List.Sort
import Tenderdash.Lib.Int64
import Tenderdash.Lib.MapLoop

/-!
# The scheduler of fast sync v2

`blockchain/v2/scheduler.go`.  The scheduler keeps, for each height from `height` on that a
peer has reported, the state of its block, and for each peer its state and range.  A block
goes `New` when a ready peer reports its height, `Pending` when the scheduler asks a peer
for it (`pendingBlocks` and `pendingTime` name the peer and the time), `Received` when that
peer delivers it (`receivedBlocks` names the peer), and leaves the maps when the processor
has applied it; a removed peer sends its pending and received blocks back to `New`.

Every event the reactor's demux routes to the scheduler is a constructor of `Event`, and
`handle` answers it with the event it returns, an `ScEvent`; a Go panic is an `Except`
error.  A Go map is an `AList` whose iteration order, which Go leaves open, is the list's;
`sort.Sort(PeerByID(..))` orders IDs by `bytes.Compare`, which is the order `P` carries.  A
block is read only for its height, `height`, a parameter of `handle`.  `time.Now()` in a
handler is the argument `now`; a `time.Time` is its nanoseconds since the zero time, which
is `0`, and `Sub` saturates as Go's does.  The event priorities and the `String` methods
are left out.
-/

namespace Tenderdash.Blockchain

/-- `time.Time`, in nanoseconds; the zero time is `0`. -/
abbrev Time := ℤ

/-- `time.Second`. -/
def second : ℤ := 1000000000

/-- `t.Sub(u)`: the duration `t - u`, saturated to the range of `time.Duration`, which is
the range of `int64`. -/
def timeSub (t u : Time) : ℤ :=
  max I64.minValue (min I64.maxValue (t - u))

/-- `blockState`. -/
inductive BlockState
  | unknown
  | new
  | pending
  | received
  | processed
  deriving DecidableEq, Repr

/-- `peerState`. -/
inductive PeerState
  | new
  | ready
  | removed
  deriving DecidableEq, Repr

/-- `scPeer`. -/
structure ScPeer (P : Type) where
  peerID : P
  state : PeerState
  base : ℤ
  height : ℤ
  lastTouched : Time
  lastRate : ℤ
  deriving DecidableEq, Repr

/-- `newScPeer`. -/
def newScPeer {P : Type} (peerID : P) : ScPeer P :=
  { peerID, state := .new, base := -1, height := -1, lastTouched := 0, lastRate := 0 }

/-- The errors the scheduler makes with `fmt.Errorf` and `errors.New`, with what they print. -/
inductive ScError (P : Type)
  /-- `"couldn't find peer %s"` -/
  | peerNotFound (peerID : P)
  /-- `"tried to touch peer in state %s, must be Ready"` -/
  | touchNotReady (state : PeerState)
  /-- `"cannot move peer height lower. from %d to %d"` -/
  | heightLower (fromHeight toHeight : ℤ)
  /-- `"cannot set peer base higher than its height"` -/
  | baseAboveHeight
  /-- `"received block %d from peer %s without being requested"` -/
  | notRequested (height : ℤ) (peerID : P)
  /-- `"clock error: block %d received at %s but requested at %s"`, which prints the
  request time where the message says "received at". -/
  | clockError (height : ℤ) (pendingTime now : Time)
  /-- `"block %d should be in blockStateNew but is %s"` -/
  | notNew (height : ℤ) (state : BlockState)
  /-- `"cannot find peer %s"` -/
  | cannotFindPeer (peerID : P)
  /-- `"cannot schedule %d from %s in %s"` -/
  | cannotSchedule (height : ℤ) (peerID : P) (state : PeerState)
  /-- `"cannot request height %d from peer %s that is at height %d"` -/
  | aboveHeight (height : ℤ) (peerID : P) (peerHeight : ℤ)
  /-- `"cannot request height %d for peer %s with base %d"` -/
  | belowBase (height : ℤ) (peerID : P) (base : ℤ)
  /-- `"cannot find peer for height %d"` -/
  | noPeerForHeight (height : ℤ)
  /-- `"peer %v with base %d height %d claims no block for %d"` -/
  | noBlock (peerID : P) (base height requested : ℤ)
  /-- `"peer was stopped"` -/
  | peerStopped
  deriving DecidableEq, Repr

/-- How a call fails: with the error it returns, or with a panic. -/
inductive ScFailure (P : Type)
  | error (e : ScError P)
  | panic (msg : String)
  deriving DecidableEq, Repr

/-- The events the scheduler handles, with the fields it reads. -/
inductive Event (P B : Type)
  | bcResetState (lastBlockHeight initialHeight : ℤ)
  | bcStatusResponse (peerID : P) (base height : ℤ)
  | bcBlockResponse (time : Time) (peerID : P) (size : ℤ) (block : B)
  | bcNoBlockResponse (peerID : P) (height : ℤ)
  | rTrySchedule (time : Time)
  | bcAddNewPeer (peerID : P)
  | bcRemovePeer (peerID : P)
  | rTryPrunePeer (time : Time)
  | pcBlockProcessed (height : ℤ) (peerID : P)
  | pcBlockVerificationFailure (height : ℤ) (firstPeerID secondPeerID : P)
  deriving DecidableEq, Repr

/-- The events the scheduler returns. -/
inductive ScEvent (P B : Type)
  | noOp
  | scFinishedEv (reason : String)
  | scBlockRequest (peerID : P) (height : ℤ)
  | scBlockReceived (peerID : P) (block : B)
  | scPeerError (peerID : P) (reason : ScError P)
  | scPeersPruned (peers : List P)
  | scSchedulerFail (reason : ScError P)
  deriving DecidableEq, Repr

/-- `scheduler`. -/
structure Scheduler (P : Type) where
  initHeight : ℤ
  height : ℤ
  lastAdvance : Time
  syncTimeout : ℤ
  peers : AList fun _ : P ↦ ScPeer P
  peerTimeout : ℤ
  minRecvRate : ℤ
  targetPending : ℕ
  blockStates : AList fun _ : ℤ ↦ BlockState
  pendingBlocks : AList fun _ : ℤ ↦ P
  pendingTime : AList fun _ : ℤ ↦ Time
  receivedBlocks : AList fun _ : ℤ ↦ P

namespace Scheduler

variable {P B : Type} [LinearOrder P] [Inhabited P]

/-- `newScheduler`. -/
def newScheduler (initHeight : ℤ) (startTime : Time) : Scheduler P where
  initHeight := initHeight
  lastAdvance := startTime
  syncTimeout := 60 * second
  height := initHeight
  blockStates := ∅
  peers := ∅
  pendingBlocks := ∅
  pendingTime := ∅
  receivedBlocks := ∅
  targetPending := 10
  peerTimeout := 15 * second
  minRecvRate := 0

/-- `sort.Sort(PeerByID(peers))`: the IDs are distinct, so every sort gives the same list. -/
def sortByID (peers : List P) : List P :=
  peers.insertionSort (· ≤ ·)

/-- `ensurePeer`, returning the scheduler and the peer it points to. -/
def ensurePeer (sc : Scheduler P) (peerID : P) : Scheduler P × ScPeer P :=
  match sc.peers.lookup peerID with
  | some peer => (sc, peer)
  | none => ({ sc with peers := sc.peers.insert peerID (newScPeer peerID) }, newScPeer peerID)

/-- `touchPeer`. -/
def touchPeer (sc : Scheduler P) (peerID : P) (time : Time) : Except (ScError P) (Scheduler P) :=
  match sc.peers.lookup peerID with
  | none => throw (.peerNotFound peerID)
  | some peer =>
    if peer.state ≠ .ready then throw (.touchNotReady peer.state)
    else pure { sc with peers := sc.peers.insert peerID { peer with lastTouched := time } }

/-- `setStateAtHeight`. -/
def setStateAtHeight (sc : Scheduler P) (height : ℤ) (state : BlockState) : Scheduler P :=
  { sc with blockStates := sc.blockStates.insert height state }

/-- `getStateAtHeight`. -/
def getStateAtHeight (sc : Scheduler P) (height : ℤ) : BlockState :=
  if height < sc.height then .processed
  else match sc.blockStates.lookup height with
    | some state => state
    | none => .unknown

/-- One round of `removePeer`'s loop over `pendingBlocks`. -/
def releasePending (peerID : P) (sc : Scheduler P) (e : Σ _ : ℤ, P) : Scheduler P :=
  if e.2 = peerID then
    let sc := sc.setStateAtHeight e.1 .new
    { sc with pendingTime := sc.pendingTime.erase e.1, pendingBlocks := sc.pendingBlocks.erase e.1 }
  else sc

/-- One round of `removePeer`'s loop over `receivedBlocks`. -/
def releaseReceived (peerID : P) (sc : Scheduler P) (e : Σ _ : ℤ, P) : Scheduler P :=
  if e.2 = peerID then
    let sc := sc.setStateAtHeight e.1 .new
    { sc with receivedBlocks := sc.receivedBlocks.erase e.1 }
  else sc

/-- One round of `removePeer`'s loop computing `maxPeerHeight` over the other ready peers. -/
def maxPeerHeightStep (peer : ScPeer P) (maxPeerHeight : ℤ) (e : Σ _ : P, ScPeer P) : ℤ :=
  if e.2.state ≠ .ready then maxPeerHeight
  else if e.2.peerID ≠ peer.peerID ∧ e.2.height > maxPeerHeight then e.2.height
  else maxPeerHeight

/-- One round of `removePeer`'s loop deleting the blocks above `maxPeerHeight`. -/
def pruneAbove (maxPeerHeight : ℤ) (sc : Scheduler P) (e : Σ _ : ℤ, BlockState) :
    Scheduler P :=
  if e.1 > maxPeerHeight then { sc with blockStates := sc.blockStates.erase e.1 } else sc

/-- `removePeer`. -/
def removePeer (sc : Scheduler P) (peerID : P) : Scheduler P :=
  match sc.peers.lookup peerID with
  | none => sc
  | some peer =>
    if peer.state = .removed then sc
    else
      let sc := sc.pendingBlocks.entries.foldl (releasePending peerID) sc
      let sc := sc.receivedBlocks.entries.foldl (releaseReceived peerID) sc
      -- `peer.state = peerStateRemoved` writes through the pointer that `peers` holds
      let peer := { peer with state := .removed }
      let sc := { sc with peers := sc.peers.insert peerID peer }
      let maxPeerHeight := sc.peers.entries.foldl (maxPeerHeightStep peer) 0
      sc.blockStates.entries.foldl (pruneAbove maxPeerHeight) sc

/-- One round of `maxHeight`'s loop. -/
def maxHeightStep (max : ℤ) (e : Σ _ : P, ScPeer P) : ℤ :=
  if e.2.state ≠ .ready then max else if max < e.2.height then e.2.height else max

/-- `maxHeight`: the largest height of a ready peer, or `height - 1`. -/
def maxHeight (sc : Scheduler P) : ℤ :=
  sc.peers.entries.foldl maxHeightStep (sc.height - 1)

/-- The loop of `addNewBlocks` from height `i`, for `k` more heights. -/
def addNewBlocksLoop : Scheduler P → ℤ → ℕ → Scheduler P
  | sc, _, 0 => sc
  | sc, i, k + 1 =>
    if i > sc.maxHeight then sc
    else
      let sc := if sc.getStateAtHeight i = .unknown then sc.setStateAtHeight i .new else sc
      addNewBlocksLoop sc (i + 1) k

/-- `addNewBlocks`. -/
def addNewBlocks (sc : Scheduler P) : Scheduler P :=
  if sc.blockStates.entries.length ≥ sc.targetPending then sc
  else addNewBlocksLoop sc sc.height sc.targetPending

/-- `setPeerRange`, returning the scheduler and the error. -/
def setPeerRange (sc : Scheduler P) (peerID : P) (base height : ℤ) :
    Scheduler P × Option (ScError P) :=
  let (sc, peer) := sc.ensurePeer peerID
  if peer.state = .removed then (sc, none)
  else if height < peer.height then (sc.removePeer peerID, some (.heightLower peer.height height))
  else if base > height then (sc.removePeer peerID, some .baseAboveHeight)
  else
    let sc := { sc with
      peers := sc.peers.insert peerID { peer with base, height, state := .ready } }
    (sc.addNewBlocks, none)

/-- `getPeersWithHeight`. -/
def getPeersWithHeight (sc : Scheduler P) (height : ℤ) : List P :=
  (sc.peers.entries.filter fun e ↦
    e.2.state = .ready ∧ e.2.base ≤ height ∧ e.2.height ≥ height).map fun e ↦ e.2.peerID

/-- `prunablePeers`. -/
def prunablePeers (sc : Scheduler P) (peerTimout minRecvRate : ℤ) (now : Time) : List P :=
  sortByID ((sc.peers.entries.filter fun e ↦ e.2.state = .ready ∧
    (timeSub now e.2.lastTouched > peerTimout ∨ e.2.lastRate < minRecvRate)).map Sigma.fst)

/-- `markReceived`.  Its contract is that the peer exists; if it does not, the write of
`peer.lastRate` dereferences `nil`. -/
def markReceived (sc : Scheduler P) (peerID : P) (height size : ℤ) (now : Time) :
    Except (ScFailure P) (Scheduler P) :=
  let peer := sc.peers.lookup peerID
  if sc.getStateAtHeight height ≠ .pending ∨
      (sc.pendingBlocks.lookup height).getD default ≠ peerID then
    throw (.error (.notRequested height peerID))
  else
    let ok := (sc.pendingTime.lookup height).isSome
    let pendingTime := (sc.pendingTime.lookup height).getD 0
    if ¬ ok ∨ timeSub now pendingTime ≤ 0 then
      throw (.error (.clockError height pendingTime now))
    else match peer with
      | none => throw (.panic "runtime error: invalid memory address or nil pointer dereference")
      | some peer =>
        let peer := { peer with lastRate := size.tdiv (timeSub now pendingTime) }
        let sc := { sc with peers := sc.peers.insert peerID peer }
        let sc := sc.setStateAtHeight height .received
        pure { sc with
          pendingBlocks := sc.pendingBlocks.erase height
          pendingTime := sc.pendingTime.erase height
          receivedBlocks := sc.receivedBlocks.insert height peerID }

/-- `markPending`. -/
def markPending (sc : Scheduler P) (peerID : P) (height : ℤ) (time : Time) :
    Except (ScError P) (Scheduler P) :=
  let state := sc.getStateAtHeight height
  if state ≠ .new then throw (.notNew height state)
  else match sc.peers.lookup peerID with
    | none => throw (.cannotFindPeer peerID)
    | some peer =>
      if peer.state ≠ .ready then throw (.cannotSchedule height peerID peer.state)
      else if height > peer.height then throw (.aboveHeight height peerID peer.height)
      else if height < peer.base then throw (.belowBase height peerID peer.base)
      else
        let sc := sc.setStateAtHeight height .pending
        pure { sc with
          pendingBlocks := sc.pendingBlocks.insert height peerID
          pendingTime := sc.pendingTime.insert height time }

/-- `markProcessed`, which never returns an error. -/
def markProcessed (sc : Scheduler P) (height : ℤ) (now : Time) : Scheduler P :=
  let sc := { sc with
    lastAdvance := now
    height := height + 1
    pendingBlocks := sc.pendingBlocks.erase height
    pendingTime := sc.pendingTime.erase height
    receivedBlocks := sc.receivedBlocks.erase height
    blockStates := sc.blockStates.erase height }
  sc.addNewBlocks

/-- `allBlocksProcessed`. -/
def allBlocksProcessed (sc : Scheduler P) : Bool :=
  if sc.peers.entries.length = 0 then false else decide (sc.height ≥ sc.maxHeight)

/-- One round of `nextHeightToSchedule`'s loop. -/
def nextHeightStep (min : ℤ) (e : Σ _ : ℤ, BlockState) : ℤ :=
  if e.2 = .new ∧ e.1 < min then e.1 else min

/-- `nextHeightToSchedule`: the lowest `New` height, or `-1`. -/
def nextHeightToSchedule (sc : Scheduler P) : ℤ :=
  let min := sc.blockStates.entries.foldl nextHeightStep I64.maxValue
  if min = I64.maxValue then -1 else min

/-- `pendingFrom`. -/
def pendingFrom (sc : Scheduler P) (peerID : P) : List ℤ :=
  (sc.pendingBlocks.entries.filter fun e ↦ e.2 = peerID).map Sigma.fst

/-- `selectPeer`.  Go groups the peers by their number of pending requests in a map and
takes the least key; the least key is the least number, and its group the peers that have
it, in the order of `peers`. -/
def selectPeer (sc : Scheduler P) (height : ℤ) : Except (ScFailure P) P :=
  let peers := sc.getPeersWithHeight height
  if peers.length = 0 then throw (.error (.noPeerForHeight height))
  else
    let numPending := fun peerID ↦ ((sc.pendingFrom peerID).length : ℤ)
    let minPending := peers.foldl (fun minPending peerID ↦
      if numPending peerID < minPending then numPending peerID else minPending) I64.maxValue
    match sortByID (peers.filter fun peerID ↦ numPending peerID = minPending) with
    | best :: _ => pure best
    | [] => throw (.panic "runtime error: index out of range [0] with length 0")

/-! ## Handlers -/

/-- `handleBlockResponse`. -/
def handleBlockResponse (height : B → ℤ) (sc : Scheduler P) (time : Time) (peerID : P)
    (size : ℤ) (block : B) : Except String (Scheduler P × ScEvent P B) :=
  match sc.touchPeer peerID time with
  | .error _ => pure (sc, .noOp)
  | .ok sc =>
    match sc.markReceived peerID (height block) size time with
    | .error (.error err) => pure (sc.removePeer peerID, .scPeerError peerID err)
    | .error (.panic msg) => throw msg
    | .ok sc => pure (sc, .scBlockReceived peerID block)

/-- `handleNoBlockResponse`. -/
def handleNoBlockResponse (sc : Scheduler P) (peerID : P) (height : ℤ) :
    Except String (Scheduler P × ScEvent P B) :=
  match sc.peers.lookup peerID with
  | none => pure (sc, .noOp)
  | some peer =>
    if peer.state = .removed then pure (sc, .noOp)
    else
      let err := ScError.noBlock peerID peer.base peer.height height
      pure (sc.removePeer peerID, .scPeerError peerID err)

/-- `handleBlockProcessed`, which panics on a height other than the next one. -/
def handleBlockProcessed (sc : Scheduler P) (now : Time) (height : ℤ) :
    Except String (Scheduler P × ScEvent P B) :=
  if height ≠ sc.height then
    throw ("processed height " ++ toString height ++ ", but expected height " ++
      toString sc.height)
  else
    let sc := sc.markProcessed height now
    if sc.allBlocksProcessed then pure (sc, .scFinishedEv "processed all blocks")
    else pure (sc, .noOp)

/-- `handleBlockProcessError`. -/
def handleBlockProcessError (sc : Scheduler P) (firstPeerID secondPeerID : P) :
    Except String (Scheduler P × ScEvent P B) :=
  let sc := sc.removePeer firstPeerID
  let sc := if firstPeerID ≠ secondPeerID then sc.removePeer secondPeerID else sc
  if sc.allBlocksProcessed then pure (sc, .scFinishedEv "error on last block")
  else pure (sc, .noOp)

/-- `handleAddNewPeer`. -/
def handleAddNewPeer (sc : Scheduler P) (peerID : P) : Except String (Scheduler P × ScEvent P B) :=
  pure ((sc.ensurePeer peerID).1, .noOp)

/-- `handleRemovePeer`. -/
def handleRemovePeer (sc : Scheduler P) (peerID : P) : Except String (Scheduler P × ScEvent P B) :=
  let sc := sc.removePeer peerID
  if sc.allBlocksProcessed then pure (sc, .scFinishedEv "removed peer")
  else pure (sc, .scPeerError peerID .peerStopped)

/-- The first step of `handleTryPrunePeer`: the peer asked for the block at `height` is
removed once its request is older than `peerTimeout`. -/
def pruneHeightPeer (sc : Scheduler P) (now : Time) : Scheduler P :=
  match sc.pendingTime.lookup sc.height with
  | some timeHeightAsked =>
    if timeSub now timeHeightAsked > sc.peerTimeout then
      sc.removePeer ((sc.pendingBlocks.lookup sc.height).getD default)
    else sc
  | none => sc

/-- `handleTryPrunePeer`. -/
def handleTryPrunePeer (sc : Scheduler P) (now time : Time) :
    Except String (Scheduler P × ScEvent P B) :=
  let sc := sc.pruneHeightPeer now
  let prunablePeers := sc.prunablePeers sc.peerTimeout sc.minRecvRate time
  if prunablePeers.length = 0 then pure (sc, .noOp)
  else
    let sc := prunablePeers.foldl removePeer sc
    if sc.allBlocksProcessed then pure (sc, .scFinishedEv "after try prune")
    else pure (sc, .scPeersPruned prunablePeers)

/-- `handleResetState`. -/
def handleResetState (sc : Scheduler P) (now : Time) (lastBlockHeight initialHeight : ℤ) :
    Except String (Scheduler P × ScEvent P B) :=
  let initHeight := lastBlockHeight + 1
  let initHeight := if initHeight = 1 then initialHeight else initHeight
  let sc := { sc with initHeight, height := initHeight, lastAdvance := now }
  pure (sc.addNewBlocks, .noOp)

/-- `handleTrySchedule`. -/
def handleTrySchedule (sc : Scheduler P) (now time : Time) :
    Except String (Scheduler P × ScEvent P B) :=
  if timeSub now sc.lastAdvance > sc.syncTimeout then pure (sc, .scFinishedEv "timeout, no advance")
  else
    let nextHeight := sc.nextHeightToSchedule
    if nextHeight = -1 then pure (sc, .noOp)
    else match sc.selectPeer nextHeight with
      | .error (.error err) => pure (sc, .scSchedulerFail err)
      | .error (.panic msg) => throw msg
      | .ok bestPeerID =>
        match sc.markPending bestPeerID nextHeight time with
        | .error err => pure (sc, .scSchedulerFail err)
        | .ok sc => pure (sc, .scBlockRequest bestPeerID nextHeight)

/-- `handleStatusResponse`. -/
def handleStatusResponse (sc : Scheduler P) (peerID : P) (base height : ℤ) :
    Except String (Scheduler P × ScEvent P B) :=
  match sc.setPeerRange peerID base height with
  | (sc, some err) => pure (sc, .scPeerError peerID err)
  | (sc, none) => pure (sc, .noOp)

/-- `handle`, with `now` the time the routine handles the event at. -/
def handle (height : B → ℤ) (sc : Scheduler P) (now : Time) :
    Event P B → Except String (Scheduler P × ScEvent P B)
  | .bcResetState lastBlockHeight initialHeight =>
    sc.handleResetState now lastBlockHeight initialHeight
  | .bcStatusResponse peerID base h => sc.handleStatusResponse peerID base h
  | .bcBlockResponse time peerID size block =>
    sc.handleBlockResponse height time peerID size block
  | .bcNoBlockResponse peerID h => sc.handleNoBlockResponse peerID h
  | .rTrySchedule time => sc.handleTrySchedule now time
  | .bcAddNewPeer peerID => sc.handleAddNewPeer peerID
  | .bcRemovePeer peerID => sc.handleRemovePeer peerID
  | .rTryPrunePeer time => sc.handleTryPrunePeer now time
  | .pcBlockProcessed h _ => sc.handleBlockProcessed now h
  | .pcBlockVerificationFailure _ firstPeerID secondPeerID =>
    sc.handleBlockProcessError firstPeerID secondPeerID

end Scheduler

namespace Routine

/-- The loop of `Routine.start`: the routine takes its events from its queue one at a time,
`now` being the time it handles each, and sends out what `handle` returns.  The scheduler's
`handle` never returns an error, so the branch that terminates the routine on one is left
out; a panic stops the loop. -/
def start {S E O : Type} (handle : S → Time → E → Except String (S × O)) :
    S → List (Time × E) → Except String (S × List O)
  | s, [] => pure (s, [])
  | s, (now, e) :: events =>
    handle s now e >>= fun (s, out) ↦
      start handle s events >>= fun (s, outs) ↦ pure (s, out :: outs)

end Routine

end Tenderdash.Blockchain
