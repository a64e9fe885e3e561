import Tenderdash.Blockchain.Scheduler
import Tenderdash.Lib.Except

/-!
# The processor of fast sync v2

`blockchain/v2/processor.go` and `processor_context.go`.  The processor keeps the blocks the
scheduler has received, keyed by height, in `queue`, and applies them in order: on each
`rProcessBlock` it takes the blocks at `height + 1` and `height + 2`, checks with the
second's `LastCommit` that the first is committed, and saves and applies the first, which
makes it the last block of the state.  A block that fails the check sends away every queued
block of both peers.

The processor's dependencies, the Go interface `processorContext`, are a `ProcessorContext`
over a context `C` whose state, `tmState`, is an `S`.  The processor reads a state only for
its `LastBlockHeight`, `lastBlockHeight`, and a block only for its height, `blockHeight`;
the part sets, block IDs and commits it builds are what `verifyCommit` and `saveBlock` read,
so they are left inside those two.  What the processor needs of `applyBlock` and
`saveBlock` is `ProcessorContext.Lawful`: `pContext` gets it from `updateState`, which sets
`LastBlockHeight` to the block's height, and `mockPContext` by its definition.  A Go panic
is an `Except` error, a `PcPanic`.
-/

namespace Tenderdash.Blockchain

/-- `processorContext`, over a context `C` whose state is an `S`. -/
structure ProcessorContext (C S B : Type) where
  /-- `applyBlock`, returning the context and the error. -/
  applyBlock : C → B → C × Option String
  /-- `verifyCommit` of a block against the `LastCommit` of the next, returning the error. -/
  verifyCommit : C → B → B → Option String
  /-- `saveBlock` of a block with the `LastCommit` of the next as its seen commit. -/
  saveBlock : C → B → B → C
  tmState : C → S
  setState : C → S → C

/-- `queueItem`. -/
structure QueueItem (P B : Type) where
  block : B
  peerID : P
  deriving DecidableEq, Repr

/-- `pcState`. -/
structure PcState (C P B : Type) where
  queue : AList fun _ : ℤ ↦ QueueItem P B
  draining : Bool
  blocksSynced : ℕ
  context : C

/-- The events the processor handles, with the fields it reads. -/
inductive PcInput (P B S : Type)
  | bcResetState (state : S)
  | scFinishedEv
  | scPeerError (peerID : P)
  | scBlockReceived (peerID : P) (block : B)
  | rProcessBlock
  deriving DecidableEq, Repr

/-- The events the processor returns. -/
inductive PcEvent (P S : Type)
  | noOp
  | pcBlockVerificationFailure (height : ℤ) (firstPeerID secondPeerID : P)
  | pcBlockProcessed (height : ℤ) (peerID : P)
  | pcFinished (blocksSynced : ℕ) (tmState : S)
  deriving DecidableEq, Repr

/-- The processor's panics, with the values their messages format. -/
inductive PcPanic (P B : Type)
  /-- "duplicate block %d (%X) enqueued by processor (sent by %v; existing block %X from %v)" -/
  | duplicateBlock (height : ℤ) (block : B) (peerID : P) (existing : QueueItem P B)
  /-- "failed to process committed block (%d:%X): %v" -/
  | failedToProcess (height : ℤ) (block : B) (err : String)
  deriving DecidableEq, Repr

namespace PcState

variable {C S P B : Type} [DecidableEq P]
  (ctx : ProcessorContext C S B) (lastBlockHeight : S → ℤ) (blockHeight : B → ℤ)

/-- `newPcState`. -/
def newPcState (context : C) : PcState C P B where
  queue := ∅
  draining := false
  blocksSynced := 0
  context := context

/-- `height`: the `LastBlockHeight` of the context's state. -/
def height (state : PcState C P B) : ℤ :=
  lastBlockHeight (ctx.tmState state.context)

/-- `nextTwo`: the queued blocks at the two heights above `height`. -/
def nextTwo (state : PcState C P B) : Except String (QueueItem P B × QueueItem P B) :=
  match state.queue.lookup (state.height ctx lastBlockHeight + 1) with
  | some first =>
    match state.queue.lookup (state.height ctx lastBlockHeight + 2) with
    | some second => pure (first, second)
    | none => throw "not found"
  | none => throw "not found"

/-- `synced`. -/
def synced (state : PcState C P B) : Bool :=
  state.queue.entries.length ≤ 1

/-- `enqueue`. -/
def enqueue (state : PcState C P B) (peerID : P) (block : B) (height : ℤ) :
    Except (PcPanic P B) (PcState C P B) :=
  match state.queue.lookup height with
  | some item => throw (.duplicateBlock height block peerID item)
  | none => pure { state with queue := state.queue.insert height { block, peerID } }

/-- `purgePeer`: a loop over `queue` deleting every block `peerID` sent. -/
def purgePeer (state : PcState C P B) (peerID : P) : PcState C P B :=
  { state with
    queue := state.queue.entries.foldl
      (MapLoop.eraseIf (fun e ↦ e.2.peerID = peerID) Sigma.fst) state.queue }

/-- `handle`. -/
def handle (state : PcState C P B) :
    PcInput P B S → Except (PcPanic P B) (PcState C P B × PcEvent P S)
  | .bcResetState s => pure ({ state with context := ctx.setState state.context s }, .noOp)
  | .scFinishedEv =>
    if state.synced then pure (state, .pcFinished state.blocksSynced (ctx.tmState state.context))
    else pure ({ state with draining := true }, .noOp)
  | .scPeerError peerID => pure (state.purgePeer peerID, .noOp)
  | .scBlockReceived peerID block =>
    if blockHeight block > state.height ctx lastBlockHeight then do
      let state ← state.enqueue peerID block (blockHeight block)
      pure (state, .noOp)
    else pure (state, .noOp)
  | .rProcessBlock =>
    let tmState := ctx.tmState state.context
    match state.nextTwo ctx lastBlockHeight with
    | .error _ =>
      if state.draining then pure (state, .pcFinished state.blocksSynced tmState)
      else pure (state, .noOp)
    | .ok (firstItem, secondItem) =>
      let first := firstItem.block
      match ctx.verifyCommit state.context first secondItem.block with
      | some _ =>
        let state := state.purgePeer firstItem.peerID
        let state :=
          if firstItem.peerID ≠ secondItem.peerID then state.purgePeer secondItem.peerID
          else state
        pure (state, .pcBlockVerificationFailure (blockHeight first) firstItem.peerID
          secondItem.peerID)
      | none =>
        match ctx.applyBlock (ctx.saveBlock state.context first secondItem.block) first with
        | (_, some err) => throw (.failedToProcess (blockHeight first) first err)
        | (context, none) =>
          pure ({ state with
              context
              queue := state.queue.erase (blockHeight first)
              blocksSynced := state.blocksSynced + 1 },
            .pcBlockProcessed (blockHeight first) firstItem.peerID)

end PcState

/-! ## The contexts -/

/-- What the processor needs of its context: applying a block without an error makes it the
last block of the state, and saving a block leaves the state as it is. -/
structure ProcessorContext.Lawful {C S B : Type} (ctx : ProcessorContext C S B)
    (lastBlockHeight : S → ℤ) (blockHeight : B → ℤ) : Prop where
  applyBlock_ok : ∀ c b c', ctx.applyBlock c b = (c', none) →
    lastBlockHeight (ctx.tmState c') = blockHeight b
  tmState_saveBlock : ∀ c b b', ctx.tmState (ctx.saveBlock c b b') = ctx.tmState c

/-- `mockPContext`. -/
structure MockPContext (S : Type) where
  applicationBL : List ℤ
  verificationBL : List ℤ
  state : S

/-- The methods of `mockPContext`, with `setLastBlockHeight` the write of a state's
`LastBlockHeight`. -/
def mockPContext {S B : Type} (blockHeight : B → ℤ) (setLastBlockHeight : S → ℤ → S) :
    ProcessorContext (MockPContext S) S B where
  applyBlock mpc block :=
    if blockHeight block ∈ mpc.applicationBL then (mpc, some "generic application error")
    else ({ mpc with state := setLastBlockHeight mpc.state (blockHeight block) }, none)
  verifyCommit mpc first _ :=
    if blockHeight first ∈ mpc.verificationBL then some "generic verification error" else none
  saveBlock mpc _ _ := mpc
  tmState mpc := mpc.state
  setState mpc state := { mpc with state }

theorem mockPContext_lawful {S B : Type} {blockHeight : B → ℤ} {lastBlockHeight : S → ℤ}
    {setLastBlockHeight : S → ℤ → S} (hset : ∀ s h, lastBlockHeight (setLastBlockHeight s h) = h) :
    (mockPContext blockHeight setLastBlockHeight).Lawful lastBlockHeight blockHeight where
  applyBlock_ok c b c' h := by
    simp only [mockPContext] at h
    split_ifs at h
    · cases (Prod.mk.inj h).2
    · obtain rfl := (Prod.mk.inj h).1
      exact hset _ _
  tmState_saveBlock _ _ _ := rfl

/-! ## What an event does -/

namespace PcState

variable {C S P B : Type} {ctx : ProcessorContext C S B}
  {lastBlockHeight : S → ℤ} {blockHeight : B → ℤ} {state state' state'' : PcState C P B}

/-- `state'` is `state` with some of its queued blocks taken out: what every event but a
new block or an applied one does. -/
structure Removes (state state' : PcState C P B) : Prop where
  context_eq : state'.context = state.context
  blocksSynced_eq : state'.blocksSynced = state.blocksSynced
  lookup_eq_some : ∀ h item, state'.queue.lookup h = some item → state.queue.lookup h = some item

theorem Removes.refl (state : PcState C P B) : Removes state state :=
  ⟨rfl, rfl, fun _ _ ↦ id⟩

theorem Removes.trans (h₁ : Removes state state') (h₂ : Removes state' state'') :
    Removes state state'' :=
  ⟨h₂.context_eq.trans h₁.context_eq, h₂.blocksSynced_eq.trans h₁.blocksSynced_eq,
    fun h item hl ↦ h₁.lookup_eq_some h item (h₂.lookup_eq_some h item hl)⟩

theorem Removes.height_eq (hr : Removes state state') :
    state'.height ctx lastBlockHeight = state.height ctx lastBlockHeight := by
  rw [height, height, hr.context_eq]

theorem enqueue_eq_ok {peerID : P} {block : B} {h : ℤ}
    (he : state.enqueue peerID block h = .ok state') :
    state.queue.lookup h = none ∧ state' = { state with queue := state.queue.insert h ⟨block, peerID⟩ } := by
  unfold enqueue at he
  split at he
  · exact absurd he Except.throw_ne_ok
  · exact ⟨‹_›, (Except.pure_eq_ok.mp he).symm⟩

theorem nextTwo_eq_ok {first second : QueueItem P B}
    (hn : state.nextTwo ctx lastBlockHeight = .ok (first, second)) :
    state.queue.lookup (state.height ctx lastBlockHeight + 1) = some first ∧
      state.queue.lookup (state.height ctx lastBlockHeight + 2) = some second := by
  unfold nextTwo at hn
  split at hn
  · split at hn
    · obtain ⟨rfl, rfl⟩ := Prod.mk.inj (Except.pure_eq_ok.mp hn)
      exact ⟨‹_›, ‹_›⟩
    · exact absurd hn Except.throw_ne_ok
  · exact absurd hn Except.throw_ne_ok

variable [DecidableEq P]

/-- After `purgePeer`, a height holds what it held unless `peerID` sent it. -/
theorem lookup_purgePeer (peerID : P) (h : ℤ) :
    (state.purgePeer peerID).queue.lookup h =
      if ∃ item, state.queue.lookup h = some item ∧ item.peerID = peerID then none
      else state.queue.lookup h :=
  MapLoop.lookup_foldl_eraseIf_entries state.queue (·.peerID = peerID) state.queue h

/-- `purgePeer` takes out exactly the blocks `peerID` sent. -/
theorem lookup_purgePeer_eq_some {peerID : P} {h : ℤ} {item : QueueItem P B} :
    (state.purgePeer peerID).queue.lookup h = some item ↔
      state.queue.lookup h = some item ∧ item.peerID ≠ peerID := by
  rw [lookup_purgePeer]
  split_ifs with hp
  · obtain ⟨item', hl, hid⟩ := hp
    simp only [false_iff, not_and, not_not]
    intro hl'
    rw [hl] at hl'
    exact Option.some.inj hl' ▸ hid
  · exact ⟨fun hl ↦ ⟨hl, fun hid ↦ hp ⟨item, hl, hid⟩⟩, And.left⟩

theorem removes_purgePeer (state : PcState C P B) (peerID : P) :
    Removes state (state.purgePeer peerID) :=
  ⟨rfl, rfl, fun _ _ hl ↦ (lookup_purgePeer_eq_some.mp hl).1⟩

variable {out : PcEvent P S}

/-- The three things an event other than `bcResetState` does: it takes blocks out of the
queue, puts a new block in above the height, or applies the block at `height + 1`. -/
theorem handle_cases {e : PcInput P B S} (he : ∀ s, e ≠ .bcResetState s)
    (hs : state.handle ctx lastBlockHeight blockHeight e = .ok (state', out)) :
    (Removes state state' ∧ ∀ h p, out ≠ .pcBlockProcessed h p) ∨
    (∃ p b, state.height ctx lastBlockHeight < blockHeight b ∧
      state.enqueue p b (blockHeight b) = .ok state' ∧ out = .noOp) ∨
    ∃ (first second : QueueItem P B) (context : C),
      state.nextTwo ctx lastBlockHeight = .ok (first, second) ∧
      ctx.applyBlock (ctx.saveBlock state.context first.block second.block) first.block =
        (context, none) ∧
      state' = { state with
        context
        queue := state.queue.erase (blockHeight first.block)
        blocksSynced := state.blocksSynced + 1 } ∧
      out = .pcBlockProcessed (blockHeight first.block) first.peerID := by
  cases e with
  | bcResetState s => exact absurd rfl (he s)
  | scFinishedEv =>
    dsimp only [handle] at hs
    split_ifs at hs <;> obtain ⟨rfl, rfl⟩ := Prod.mk.inj (Except.pure_eq_ok.mp hs)
    · exact .inl ⟨.refl state, (fun _ _ h ↦ nomatch h)⟩
    · exact .inl ⟨⟨rfl, rfl, fun _ _ ↦ id⟩, (fun _ _ h ↦ nomatch h)⟩
  | scPeerError peerID =>
    obtain ⟨rfl, rfl⟩ := Prod.mk.inj (Except.pure_eq_ok.mp hs)
    exact .inl ⟨removes_purgePeer state peerID, (fun _ _ h ↦ nomatch h)⟩
  | scBlockReceived peerID block =>
    dsimp only [handle] at hs
    split_ifs at hs with hh
    · obtain ⟨state₁, hE, hp⟩ := Except.bind_eq_ok.mp hs
      obtain ⟨rfl, rfl⟩ := Prod.mk.inj (Except.pure_eq_ok.mp hp)
      exact .inr (.inl ⟨peerID, block, hh, hE, rfl⟩)
    · obtain ⟨rfl, rfl⟩ := Prod.mk.inj (Except.pure_eq_ok.mp hs)
      exact .inl ⟨.refl state, (fun _ _ h ↦ nomatch h)⟩
  | rProcessBlock =>
    dsimp only [handle] at hs
    split at hs
    · split_ifs at hs <;> obtain ⟨rfl, rfl⟩ := Prod.mk.inj (Except.pure_eq_ok.mp hs) <;>
        exact .inl ⟨.refl state, (fun _ _ h ↦ nomatch h)⟩
    rename_i first second hn
    split at hs
    · obtain ⟨rfl, rfl⟩ := Prod.mk.inj (Except.pure_eq_ok.mp hs)
      have h₁ := removes_purgePeer state first.peerID
      refine .inl ⟨?_, (fun _ _ h ↦ nomatch h)⟩
      split_ifs
      · exact h₁.trans (removes_purgePeer _ second.peerID)
      · exact h₁
    split at hs
    · exact absurd hs Except.throw_ne_ok
    rename_i context happly
    obtain ⟨rfl, rfl⟩ := Prod.mk.inj (Except.pure_eq_ok.mp hs)
    exact .inr (.inr ⟨first, second, context, hn, happly, rfl, rfl⟩)

end PcState

/-! ## The invariant over a run -/

namespace PcState

variable {C S P B : Type} {ctx : ProcessorContext C S B}
  {lastBlockHeight : S → ℤ} {blockHeight : B → ℤ} {state state' : PcState C P B}

variable (ctx lastBlockHeight blockHeight) in
/-- Every queued block is queued at its own height, above the processor's height. -/
structure Inv (state : PcState C P B) : Prop where
  blockHeight_eq : ∀ h item, state.queue.lookup h = some item → blockHeight item.block = h
  height_lt : ∀ h item, state.queue.lookup h = some item → state.height ctx lastBlockHeight < h

theorem Inv.newPcState (context : C) :
    Inv ctx lastBlockHeight blockHeight (newPcState context : PcState C P B) := by
  constructor <;> simp [PcState.newPcState]

theorem Inv.of_removes (hI : Inv ctx lastBlockHeight blockHeight state)
    (hr : Removes state state') : Inv ctx lastBlockHeight blockHeight state' where
  blockHeight_eq h item hl := hI.blockHeight_eq h item (hr.lookup_eq_some h item hl)
  height_lt h item hl := hr.height_eq ▸ hI.height_lt h item (hr.lookup_eq_some h item hl)

theorem Inv.enqueue (hI : Inv ctx lastBlockHeight blockHeight state) {peerID : P} {block : B}
    (hh : state.height ctx lastBlockHeight < blockHeight block)
    (he : state.enqueue peerID block (blockHeight block) = .ok state') :
    Inv ctx lastBlockHeight blockHeight state' := by
  obtain ⟨-, rfl⟩ := enqueue_eq_ok he
  constructor <;> intro h item hl <;> by_cases hk : h = blockHeight block
  · subst hk
    rw [AList.lookup_insert] at hl
    rw [← Option.some.inj hl]
  · rw [AList.lookup_insert_ne hk] at hl
    exact hI.blockHeight_eq h item hl
  · exact hk ▸ hh
  · rw [AList.lookup_insert_ne hk] at hl
    exact hI.height_lt h item hl

section Apply

variable {first second : QueueItem P B} {context : C}
  (hlaw : ctx.Lawful lastBlockHeight blockHeight) (hI : Inv ctx lastBlockHeight blockHeight state)
  (hn : state.nextTwo ctx lastBlockHeight = .ok (first, second))
  (happly : ctx.applyBlock (ctx.saveBlock state.context first.block second.block) first.block =
    (context, none))
include hlaw hI hn happly

/-- The block `rProcessBlock` applies is the one at `height + 1`, and its height becomes
the processor's. -/
theorem height_apply :
    blockHeight first.block = state.height ctx lastBlockHeight + 1 ∧
      lastBlockHeight (ctx.tmState context) = state.height ctx lastBlockHeight + 1 := by
  have hfirst := hI.blockHeight_eq _ _ (nextTwo_eq_ok hn).1
  exact ⟨hfirst, (hlaw.applyBlock_ok _ _ _ happly).trans hfirst⟩

theorem Inv.apply :
    Inv ctx lastBlockHeight blockHeight { state with
      context
      queue := state.queue.erase (blockHeight first.block)
      blocksSynced := state.blocksSynced + 1 } := by
  obtain ⟨hfirst, hheight⟩ := height_apply hlaw hI hn happly
  have hrest : ∀ h item, (state.queue.erase (blockHeight first.block)).lookup h = some item →
      h ≠ blockHeight first.block ∧ state.queue.lookup h = some item := by
    intro h item hl
    by_cases hk : h = blockHeight first.block
    · subst hk
      simp at hl
    · exact ⟨hk, by rwa [AList.lookup_erase_ne hk] at hl⟩
  constructor
  · intro h item hl
    exact hI.blockHeight_eq h item (hrest h item hl).2
  · intro h item hl
    obtain ⟨hk, hl⟩ := hrest h item hl
    have hlt := hI.height_lt h item hl
    show lastBlockHeight (ctx.tmState context) < h
    omega

end Apply

variable [DecidableEq P] {out : PcEvent P S} {e : PcInput P B S}

theorem Inv.handle (hlaw : ctx.Lawful lastBlockHeight blockHeight)
    (hI : Inv ctx lastBlockHeight blockHeight state) (he : ∀ s, e ≠ .bcResetState s)
    (hs : state.handle ctx lastBlockHeight blockHeight e = .ok (state', out)) :
    Inv ctx lastBlockHeight blockHeight state' := by
  rcases handle_cases he hs with
    ⟨hr, -⟩ | ⟨p, b, hh, hE, -⟩ | ⟨first, second, context, hn, happly, rfl, -⟩
  · exact hI.of_removes hr
  · exact hI.enqueue hh hE
  · exact hI.apply hlaw hn happly

/-- An event moves the processor's height only by applying the block at `height + 1`, which
it reports and counts. -/
theorem Inv.handle_height (hlaw : ctx.Lawful lastBlockHeight blockHeight)
    (hI : Inv ctx lastBlockHeight blockHeight state) (he : ∀ s, e ≠ .bcResetState s)
    (hs : state.handle ctx lastBlockHeight blockHeight e = .ok (state', out)) :
    (state'.height ctx lastBlockHeight = state.height ctx lastBlockHeight ∧
      state'.blocksSynced = state.blocksSynced ∧ ∀ h p, out ≠ .pcBlockProcessed h p) ∨
    ∃ p, out = .pcBlockProcessed (state.height ctx lastBlockHeight + 1) p ∧
      state'.height ctx lastBlockHeight = state.height ctx lastBlockHeight + 1 ∧
      state'.blocksSynced = state.blocksSynced + 1 := by
  rcases handle_cases he hs with
    ⟨hr, hout⟩ | ⟨p, b, -, hE, rfl⟩ | ⟨first, second, context, hn, happly, rfl, rfl⟩
  · exact .inl ⟨hr.height_eq, hr.blocksSynced_eq, hout⟩
  · obtain ⟨-, rfl⟩ := enqueue_eq_ok hE
    exact .inl ⟨rfl, rfl, (fun _ _ h ↦ nomatch h)⟩
  · obtain ⟨hfirst, hheight⟩ := height_apply hlaw hI hn happly
    exact .inr ⟨first.peerID, by rw [hfirst], hheight, rfl⟩

/-- With the mock context, two blocks of peer `7` at heights `1` and `2` let the next
`rProcessBlock` apply the first and report it. -/
example :
    let ctx : ProcessorContext (MockPContext ℤ) ℤ ℤ := mockPContext id fun _ h ↦ h
    (do
      let (state, _) ← (newPcState ⟨[], [], 0⟩ : PcState (MockPContext ℤ) ℕ ℤ).handle ctx id id
        (.scBlockReceived 7 1)
      let (state, _) ← state.handle ctx id id (.scBlockReceived 7 2)
      let (state, out) ← state.handle ctx id id .rProcessBlock
      pure (state.height ctx id, state.blocksSynced, out)) =
      Except.ok (1, 1, .pcBlockProcessed 1 7) := rfl

variable (ctx lastBlockHeight blockHeight) in
/-- The states of a processor that `newPcState` started with a context at height `h0`, after
events other than `bcResetState`, which the reactor sends a processor only as it starts. -/
inductive Reachable : ℤ → PcState C P B → Prop
  | start (context : C) :
      Reachable (lastBlockHeight (ctx.tmState context)) (PcState.newPcState context)
  | step {h0 : ℤ} {state state' : PcState C P B} {out : PcEvent P S} (e : PcInput P B S) :
      Reachable h0 state → (∀ s, e ≠ .bcResetState s) →
      state.handle ctx lastBlockHeight blockHeight e = .ok (state', out) → Reachable h0 state'

/-- Handling events other than `bcResetState` one after another from a reachable state
reaches a state. -/
theorem Reachable.foldlM {h0 : ℤ} (hr : Reachable ctx lastBlockHeight blockHeight h0 state)
    {events : List (PcInput P B S)} (hreset : ∀ e ∈ events, ∀ s, e ≠ .bcResetState s)
    (h : events.foldlM (fun st e ↦ (st.handle ctx lastBlockHeight blockHeight e).map Prod.fst)
      state = .ok state') :
    Reachable ctx lastBlockHeight blockHeight h0 state' := by
  induction events generalizing state with
  | nil =>
    cases h
    exact hr
  | cons e events ih =>
    simp only [List.foldlM_cons, Except.bind_eq_ok, Except.map_eq_fmap, Except.map_eq_ok] at h
    obtain ⟨_, ⟨⟨state₁, out⟩, hs, rfl⟩, hrest⟩ := h
    exact ih (.step e hr (hreset e List.mem_cons_self) hs)
      (fun e he ↦ hreset e (List.mem_cons_of_mem _ he)) hrest

/-- The run lemma: the invariant, and the height counted from the start by the blocks
synced. -/
theorem Reachable.inv (hlaw : ctx.Lawful lastBlockHeight blockHeight) {h0 : ℤ}
    (hr : Reachable ctx lastBlockHeight blockHeight h0 state) :
    Inv ctx lastBlockHeight blockHeight state ∧
      state.height ctx lastBlockHeight = h0 + state.blocksSynced := by
  induction hr with
  | start context => exact ⟨.newPcState context, by simp [height, PcState.newPcState]⟩
  | step e _ he hs ih =>
    obtain ⟨hI, hh⟩ := ih
    refine ⟨hI.handle hlaw he hs, ?_⟩
    rcases hI.handle_height hlaw he hs with ⟨h₁, h₂, -⟩ | ⟨p, -, h₁, h₂⟩
    · rw [h₁, h₂, hh]
    · rw [h₁, h₂, hh]
      omega

/-- In every run of the processor, each queued block is queued at its own height and lies
above the last block applied, and the processor's height has moved from where it started by
exactly the number of blocks it has synced. -/
theorem reachable_blocksSynced_height (hlaw : ctx.Lawful lastBlockHeight blockHeight) {h0 : ℤ}
    (hr : Reachable ctx lastBlockHeight blockHeight h0 state) :
    (∀ h item, state.queue.lookup h = some item →
      blockHeight item.block = h ∧ state.height ctx lastBlockHeight < h) ∧
    state.height ctx lastBlockHeight = h0 + state.blocksSynced := by
  obtain ⟨hI, hh⟩ := hr.inv hlaw
  exact ⟨fun h item hl ↦ ⟨hI.blockHeight_eq h item hl, hI.height_lt h item hl⟩, hh⟩

/-- The mock context, over states that are their `LastBlockHeight` and blocks that are their
height, started at height 5: peer 7 sends blocks 6 and 7, peer 8 block 8, and block 6 is
processed.  Blocks 7 and 8 stay queued above height 6, one block synced. -/
theorem reachable_blocksSynced_height_queued :
    let ctx : ProcessorContext (MockPContext ℤ) ℤ ℤ := mockPContext id fun _ h ↦ h
    ∃ state : PcState (MockPContext ℤ) ℕ ℤ,
      ([.scBlockReceived 7 6, .scBlockReceived 7 7, .scBlockReceived 8 8, .rProcessBlock] :
          List (PcInput ℕ ℤ ℤ)).foldlM
        (fun (st : PcState (MockPContext ℤ) ℕ ℤ) e ↦ (st.handle ctx id id e).map Prod.fst)
        (newPcState ⟨[], [], 5⟩) = .ok state ∧
      (state.queue.keys, state.blocksSynced) = ([8, 7], 1) ∧
      ctx.Lawful id id ∧ Reachable ctx id id 5 state ∧
      (∀ h item, state.queue.lookup h = some item →
        id item.block = h ∧ state.height ctx id < h) ∧
      state.height ctx id = 5 + state.blocksSynced := by
  intro ctx
  have hlaw : ctx.Lawful id id := mockPContext_lawful fun _ _ ↦ rfl
  obtain ⟨state, hrun, hqueue⟩ := Except.exists_eq_ok_of_toOption_map
    (show (([.scBlockReceived 7 6, .scBlockReceived 7 7, .scBlockReceived 8 8, .rProcessBlock] :
          List (PcInput ℕ ℤ ℤ)).foldlM
        (fun (st : PcState (MockPContext ℤ) ℕ ℤ) e ↦ (st.handle ctx id id e).map Prod.fst)
        (newPcState ⟨[], [], 5⟩ : PcState (MockPContext ℤ) ℕ ℤ)).toOption.map
        (fun state ↦ (state.queue.keys, state.blocksSynced)) = some ([8, 7], 1) by decide)
  have hr : Reachable ctx id id 5 state := (Reachable.start (⟨[], [], 5⟩ : MockPContext ℤ)).foldlM
    (fun e he s h ↦ by
      simp only [List.mem_cons, List.not_mem_nil, or_false] at he
      rcases he with rfl | rfl | rfl | rfl <;> cases h) hrun
  exact ⟨state, hrun, hqueue, hlaw, hr, reachable_blocksSynced_height hlaw hr⟩

end PcState

end Tenderdash.Blockchain
