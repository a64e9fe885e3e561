import Tenderdash.Blockchain.Processor
import Tenderdash.Blockchain.SchedulerRun

/-!
# The reactor of fast sync v2: the scheduler and the processor together

`blockchain/v2/reactor.go` and `routine.go`.  The reactor runs the scheduler and the
processor as two routines, each taking events from its own queue, handling them one at a
time and sending what `handle` returns down its out channel; `demux` forwards peer messages
and the scheduling and pruning ticks into the scheduler's queue, `rProcessBlock` ticks into
the processor's, and what each routine sends out into the other's queue.

A `BlockchainReactor` holds the two handlers' states with each routine's queue and out
channel, and a `Step` is one move of demux or of a routine, in any interleaving.  The order
in which a routine takes the events of its queue is left open: the queue is a priority queue
outside this repository, which promises no order among events of equal priority, so the
scheduler may take the processor's `pcBlockProcessed` reports out of the order demux sent
them in.  A handler that panics ends the run, so a run holds only the steps that returned;
`reactor_reports_no_panic` says on which events the scheduler panics.  In Go, `scFinishedEv`
stops the scheduler and `pcFinished` ends the sync; the model lets both routines go on,
which only adds runs.  Starting through `SwitchToFastSync`, which sends both routines a
`bcResetState`, is left out: a run starts from `newReactor`.
-/

namespace Tenderdash.Blockchain

/-- `n` consecutive heights from `a`. -/
def heightsFrom (a : ℤ) (n : ℕ) : List ℤ :=
  (List.range n).map fun i : ℕ ↦ a + (i : ℤ)

theorem heightsFrom_succ (a : ℤ) (n : ℕ) : heightsFrom a (n + 1) = heightsFrom a n ++ [a + n] := by
  rw [heightsFrom, List.range_succ, List.map_append, List.map_singleton, heightsFrom]

theorem heightsFrom_succ' (a : ℤ) (n : ℕ) :
    heightsFrom a (n + 1) = a :: heightsFrom (a + 1) n := by
  rw [heightsFrom, List.range_succ_eq_map, List.map_cons, List.map_map, heightsFrom]
  congr 1
  · simp
  · refine List.map_congr_left fun i _ ↦ ?_
    simp only [Function.comp_apply, Nat.succ_eq_add_one, Nat.cast_add, Nat.cast_one]
    omega

/-- The height a `pcBlockProcessed` reports. -/
def Event.processedHeight {P B : Type} : Event P B → Option ℤ
  | .pcBlockProcessed height _ => some height
  | _ => none

/-- The height a `pcBlockProcessed` reports. -/
def PcEvent.processedHeight {P S : Type} : PcEvent P S → Option ℤ
  | .pcBlockProcessed height _ => some height
  | _ => none

/-- The events demux sends the scheduler from peers (`bcStatusResponse`, `bcAddNewPeer`,
`bcRemovePeer`, `bcBlockResponse`, `bcNoBlockResponse`) and from its tickers
(`rTrySchedule`, `rTryPrunePeer`). -/
def Event.FromPeerOrTicker {P B : Type} : Event P B → Prop
  | .bcResetState _ _ | .pcBlockProcessed _ _ | .pcBlockVerificationFailure _ _ _ => False
  | _ => True

/-- What demux sends the processor for an event of the scheduler. -/
def forwardScheduler {P B S : Type} : ScEvent P B → List (PcInput P B S)
  | .scBlockReceived peerID block => [.scBlockReceived peerID block]
  | .scPeerError peerID _ => [.scPeerError peerID]
  | .scFinishedEv _ => [.scFinishedEv]
  | .scPeersPruned peers => peers.map .scPeerError
  | .scBlockRequest _ _ | .scSchedulerFail _ | .noOp => []

/-- What demux sends the scheduler for an event of the processor. -/
def forwardProcessor {P B S : Type} : PcEvent P S → List (Event P B)
  | .pcBlockProcessed height peerID => [.pcBlockProcessed height peerID]
  | .pcBlockVerificationFailure height firstPeerID secondPeerID =>
    [.pcBlockVerificationFailure height firstPeerID secondPeerID]
  | .pcFinished _ _ | .noOp => []

/-- `BlockchainReactor`: each routine's handler state, its queue (the events sent to it and
not yet handled) and its out channel (the events it returned that demux has not yet
forwarded). -/
structure BlockchainReactor (C S P B : Type) where
  scheduler : Scheduler P
  processor : PcState C P B
  schedulerQueue : List (Event P B)
  schedulerOut : List (ScEvent P B)
  processorQueue : List (PcInput P B S)
  processorOut : List (PcEvent P S)

namespace BlockchainReactor

variable {C S P B : Type} [LinearOrder P] [Inhabited P]
  (ctx : ProcessorContext C S B) (lastBlockHeight initialHeight : S → ℤ) (height : B → ℤ)

/-- `newReactor` with the processor's context, whose state has `LastBlockHeight` and
`InitialHeight`: the scheduler starts at the height above the last block, or at the initial
height on a chain with no block yet. -/
def newReactor (context : C) (startTime : Time) : BlockchainReactor C S P B :=
  let state := ctx.tmState context
  let initHeight := lastBlockHeight state + 1
  let initHeight := if initHeight = 1 then initialHeight state else initHeight
  { scheduler := Scheduler.newScheduler initHeight startTime
    processor := PcState.newPcState context
    schedulerQueue := []
    schedulerOut := []
    processorQueue := []
    processorOut := [] }

/-- One move of demux or of a routine. -/
inductive Step : BlockchainReactor C S P B → BlockchainReactor C S P B → Prop
  /-- demux forwards a peer's message or a tick to the scheduler -/
  | schedulerSend (R : BlockchainReactor C S P B) (e : Event P B) :
      e.FromPeerOrTicker → Step R { R with schedulerQueue := R.schedulerQueue ++ [e] }
  /-- demux sends the processor an `rProcessBlock` tick -/
  | processBlock (R : BlockchainReactor C S P B) :
      Step R { R with processorQueue := R.processorQueue ++ [.rProcessBlock] }
  /-- the scheduler handles an event of its queue -/
  | schedulerHandle (R : BlockchainReactor C S P B) (pre post : List (Event P B))
      (e : Event P B) (now : Time) (sc' : Scheduler P) (out : ScEvent P B) :
      R.schedulerQueue = pre ++ e :: post →
      R.scheduler.handle height now e = .ok (sc', out) →
      Step R { R with
        scheduler := sc'
        schedulerQueue := pre ++ post
        schedulerOut := R.schedulerOut ++ [out] }
  /-- demux forwards the oldest event of the scheduler's out channel -/
  | schedulerNext (R : BlockchainReactor C S P B) (out : ScEvent P B) (rest : List (ScEvent P B)) :
      R.schedulerOut = out :: rest →
      Step R { R with
        schedulerOut := rest
        processorQueue := R.processorQueue ++ forwardScheduler out }
  /-- the processor handles an event of its queue -/
  | processorHandle (R : BlockchainReactor C S P B) (pre post : List (PcInput P B S))
      (e : PcInput P B S) (pc' : PcState C P B) (out : PcEvent P S) :
      R.processorQueue = pre ++ e :: post →
      R.processor.handle ctx lastBlockHeight height e = .ok (pc', out) →
      Step R { R with
        processor := pc'
        processorQueue := pre ++ post
        processorOut := R.processorOut ++ [out] }
  /-- demux forwards the oldest event of the processor's out channel -/
  | processorNext (R : BlockchainReactor C S P B) (out : PcEvent P S) (rest : List (PcEvent P S)) :
      R.processorOut = out :: rest →
      Step R { R with
        processorOut := rest
        schedulerQueue := R.schedulerQueue ++ forwardProcessor out }

variable (context : C) (startTime : Time) in
/-- The states of the runs of the reactor that `newReactor` built from `context` at
`startTime`: every interleaving of steps. -/
inductive Reachable : BlockchainReactor C S P B → Prop
  | start : Reachable (newReactor ctx lastBlockHeight initialHeight context startTime)
  | step {R R' : BlockchainReactor C S P B} :
      Reachable R → Step ctx lastBlockHeight height R R' → Reachable R'

end BlockchainReactor

/-! ## The processor's reports -/

theorem Event.processedHeight_eq_none {P B : Type} {e : Event P B} (he : e.FromPeerOrTicker) :
    e.processedHeight = none := by
  cases e <;> first | rfl | exact he.elim

theorem PcEvent.processedHeight_eq_none {P S : Type} {out : PcEvent P S}
    (hout : ∀ h p, out ≠ .pcBlockProcessed h p) : out.processedHeight = none := by
  cases out with
  | pcBlockProcessed h p => exact absurd rfl (hout h p)
  | _ => rfl

/-- demux forwards the processor's reports as they are. -/
theorem filterMap_forwardProcessor {P B S : Type} (out : PcEvent P S) :
    (forwardProcessor out : List (Event P B)).filterMap Event.processedHeight =
      [out].filterMap PcEvent.processedHeight := by
  cases out <;> rfl

theorem forwardScheduler_ne_reset {P B S : Type} {out : ScEvent P B} :
    ∀ x ∈ (forwardScheduler out : List (PcInput P B S)), ∀ s, x ≠ .bcResetState s := by
  cases out <;> simp [forwardScheduler]

theorem forwardProcessor_ne_reset {P B S : Type} {out : PcEvent P S} :
    ∀ x ∈ (forwardProcessor out : List (Event P B)), ∀ lastBlockHeight initialHeight,
      x ≠ .bcResetState lastBlockHeight initialHeight := by
  cases out <;> simp [forwardProcessor]

namespace BlockchainReactor

variable {C S P B : Type} [LinearOrder P] [Inhabited P] {ctx : ProcessorContext C S B}
  {lastBlockHeight : S → ℤ} {height : B → ℤ} {R : BlockchainReactor C S P B}

/-- The processor's reports the scheduler has not yet handled, oldest first: those in the
scheduler's queue, then those in the processor's out channel. -/
def reports (R : BlockchainReactor C S P B) : List ℤ :=
  R.schedulerQueue.filterMap Event.processedHeight ++
    R.processorOut.filterMap PcEvent.processedHeight

variable (ctx lastBlockHeight height) in
/-- Each routine is in a state of its own runs, no queue holds a `bcResetState`, and the
reports not yet handled are, in some order, the heights from the scheduler's up to the
processor's. -/
structure Inv (R : BlockchainReactor C S P B) : Prop where
  scheduler_reachable : Scheduler.Reachable height R.scheduler
  processor_reachable : ∃ h0, PcState.Reachable ctx lastBlockHeight height h0 R.processor
  schedulerQueue_ne_reset : ∀ e ∈ R.schedulerQueue, ∀ lastBlockHeight initialHeight,
    e ≠ .bcResetState lastBlockHeight initialHeight
  processorQueue_ne_reset : ∀ e ∈ R.processorQueue, ∀ s, e ≠ .bcResetState s
  reports_perm : ∃ n, R.reports.Perm (heightsFrom R.scheduler.height n) ∧
    R.scheduler.height + n = R.processor.height ctx lastBlockHeight + 1

/-- A new reactor has the invariant, unless its state is that of a chain with no block yet
whose first height is not `1`: the scheduler then waits for the initial height while the
processor waits for height `1`. -/
theorem Inv.newReactor {initialHeight : S → ℤ} (context : C) (startTime : Time)
    (hstart : lastBlockHeight (ctx.tmState context) = 0 →
      initialHeight (ctx.tmState context) = 1) :
    Inv ctx lastBlockHeight height
      (BlockchainReactor.newReactor ctx lastBlockHeight initialHeight context startTime :
        BlockchainReactor C S P B) where
  scheduler_reachable := .start _ startTime
  processor_reachable := ⟨_, .start context⟩
  schedulerQueue_ne_reset := by simp [BlockchainReactor.newReactor]
  processorQueue_ne_reset := by simp [BlockchainReactor.newReactor]
  reports_perm := by
    refine ⟨0, .rfl, ?_⟩
    simp only [BlockchainReactor.newReactor, Scheduler.newScheduler, PcState.height,
      PcState.newPcState, Nat.cast_zero, add_zero]
    split_ifs with h
    · rw [hstart (by omega)]
      omega
    · rfl

/-- A report waiting for the scheduler's height is one of the heights, and the others are the
heights above it. -/
theorem Inv.perm_report (hI : Inv ctx lastBlockHeight height R) {rest : List ℤ}
    (hr : R.reports.Perm (R.scheduler.height :: rest)) :
    ∃ n, rest.Perm (heightsFrom (R.scheduler.height + 1) n) ∧
      R.scheduler.height + 1 + n = R.processor.height ctx lastBlockHeight + 1 := by
  obtain ⟨n, hn, hheight⟩ := hI.reports_perm
  cases n with
  | zero => simpa [heightsFrom] using hr.symm.trans hn
  | succ n =>
    rw [heightsFrom_succ'] at hn
    exact ⟨n, (hr.symm.trans hn).cons_inv, by push_cast at hheight; omega⟩

section Steps

variable {R' : BlockchainReactor C S P B}

theorem Inv.schedulerSend (hI : Inv ctx lastBlockHeight height R) {e : Event P B}
    (he : e.FromPeerOrTicker) :
    Inv ctx lastBlockHeight height { R with schedulerQueue := R.schedulerQueue ++ [e] } := by
  refine ⟨hI.scheduler_reachable, hI.processor_reachable,
    List.forall_mem_append.mpr ⟨hI.schedulerQueue_ne_reset, ?_⟩, hI.processorQueue_ne_reset, ?_⟩
  · rw [List.forall_mem_singleton]
    rintro lbh ih rfl
    exact he
  · simpa [reports, Event.processedHeight_eq_none he] using hI.reports_perm

theorem Inv.processBlock (hI : Inv ctx lastBlockHeight height R) :
    Inv ctx lastBlockHeight height
      { R with processorQueue := R.processorQueue ++ [.rProcessBlock] } := by
  refine ⟨hI.scheduler_reachable, hI.processor_reachable, hI.schedulerQueue_ne_reset,
    List.forall_mem_append.mpr ⟨hI.processorQueue_ne_reset, ?_⟩, hI.reports_perm⟩
  rw [List.forall_mem_singleton]
  exact fun _ h ↦ nomatch h

theorem Inv.schedulerNext (hI : Inv ctx lastBlockHeight height R) {out : ScEvent P B}
    {rest : List (ScEvent P B)} :
    Inv ctx lastBlockHeight height { R with
      schedulerOut := rest
      processorQueue := R.processorQueue ++ forwardScheduler out } := by
  exact ⟨hI.scheduler_reachable, hI.processor_reachable, hI.schedulerQueue_ne_reset,
    List.forall_mem_append.mpr ⟨hI.processorQueue_ne_reset, forwardScheduler_ne_reset⟩,
    hI.reports_perm⟩

theorem Inv.processorNext (hI : Inv ctx lastBlockHeight height R) {out : PcEvent P S}
    {rest : List (PcEvent P S)} (hout : R.processorOut = out :: rest) :
    Inv ctx lastBlockHeight height { R with
      processorOut := rest
      schedulerQueue := R.schedulerQueue ++ forwardProcessor out } := by
  refine ⟨hI.scheduler_reachable, hI.processor_reachable,
    List.forall_mem_append.mpr ⟨hI.schedulerQueue_ne_reset, forwardProcessor_ne_reset⟩,
    hI.processorQueue_ne_reset, ?_⟩
  have hsame : R.reports = reports { R with
      processorOut := rest
      schedulerQueue := R.schedulerQueue ++ forwardProcessor out } := by
    rw [reports, reports, hout, List.filterMap_append, filterMap_forwardProcessor,
      List.append_assoc, ← List.filterMap_append, List.singleton_append]
  exact hsame ▸ hI.reports_perm

theorem Inv.schedulerHandle (hI : Inv ctx lastBlockHeight height R)
    {pre post : List (Event P B)} {e : Event P B} {now : Time} {sc' : Scheduler P}
    {out : ScEvent P B} (hq : R.schedulerQueue = pre ++ e :: post)
    (hs : R.scheduler.handle height now e = .ok (sc', out)) :
    Inv ctx lastBlockHeight height { R with
      scheduler := sc'
      schedulerQueue := pre ++ post
      schedulerOut := R.schedulerOut ++ [out] } := by
  have hne := hI.schedulerQueue_ne_reset e (by simp [hq])
  refine ⟨.step now e hI.scheduler_reachable hne hs, hI.processor_reachable,
    fun x hx ↦ hI.schedulerQueue_ne_reset x
      (hq ▸ ((List.sublist_cons_self e post).append_left pre).subset hx),
    hI.processorQueue_ne_reset, ?_⟩
  have hreports : R.reports = pre.filterMap Event.processedHeight ++
      ((e :: post).filterMap Event.processedHeight ++
        R.processorOut.filterMap PcEvent.processedHeight) := by
    rw [reports, hq, List.filterMap_append, List.append_assoc]
  have hreports' : reports { R with
      scheduler := sc'
      schedulerQueue := pre ++ post
      schedulerOut := R.schedulerOut ++ [out] } =
      pre.filterMap Event.processedHeight ++ (post.filterMap Event.processedHeight ++
        R.processorOut.filterMap PcEvent.processedHeight) := by
    rw [reports, List.filterMap_append, List.append_assoc]
  cases he : e.processedHeight with
  | none =>
    have hp : ∀ h p, e ≠ .pcBlockProcessed h p := fun h p heq ↦ by
      rw [heq] at he
      cases he
    rw [List.filterMap_cons_none he, ← hreports'] at hreports
    have hheight := Scheduler.height_handle_of_ne hne hp hs
    obtain ⟨n, hn, hlag⟩ := hI.reports_perm
    exact ⟨n, by rw [← hreports, hheight]; exact hn, by rw [hheight, hlag]⟩
  | some h =>
    obtain ⟨p, rfl⟩ : ∃ p, e = .pcBlockProcessed h p := by
      cases e with
      | pcBlockProcessed h' p => exact ⟨p, by cases he; rfl⟩
      | _ => cases he
    obtain rfl : h = R.scheduler.height :=
      (hI.scheduler_reachable.inv.handle_ok_iff height now _).mp ⟨_, hs⟩ h p rfl
    rw [List.filterMap_cons_some he, List.cons_append] at hreports
    obtain ⟨n, hn, hlag⟩ := hI.perm_report (by rw [hreports]; exact List.perm_middle)
    have hheight := Scheduler.height_handleBlockProcessed hs
    exact ⟨n, by rw [hreports', hheight]; exact hn, by rw [hheight, hlag]⟩

theorem Inv.processorHandle (hlaw : ctx.Lawful lastBlockHeight height)
    (hI : Inv ctx lastBlockHeight height R) {pre post : List (PcInput P B S)}
    {e : PcInput P B S} {pc' : PcState C P B} {out : PcEvent P S}
    (hq : R.processorQueue = pre ++ e :: post)
    (hs : R.processor.handle ctx lastBlockHeight height e = .ok (pc', out)) :
    Inv ctx lastBlockHeight height { R with
      processor := pc'
      processorQueue := pre ++ post
      processorOut := R.processorOut ++ [out] } := by
  have hne := hI.processorQueue_ne_reset e (by simp [hq])
  obtain ⟨h0, hr⟩ := hI.processor_reachable
  refine ⟨hI.scheduler_reachable, ⟨h0, .step e hr hne hs⟩, hI.schedulerQueue_ne_reset,
    fun x hx ↦ hI.processorQueue_ne_reset x
      (hq ▸ ((List.sublist_cons_self e post).append_left pre).subset hx), ?_⟩
  obtain ⟨n, hn, hlag⟩ := hI.reports_perm
  have hreports : reports { R with
      processor := pc'
      processorQueue := pre ++ post
      processorOut := R.processorOut ++ [out] } =
      R.reports ++ [out].filterMap PcEvent.processedHeight := by
    rw [reports, reports, List.filterMap_append, List.append_assoc]
  rcases ((hr.inv hlaw).1.handle_height hlaw hne hs) with ⟨hheight, -, hout⟩ | ⟨p, rfl, hheight, -⟩
  · refine ⟨n, ?_, hheight.symm ▸ hlag⟩
    rw [hreports, List.filterMap_cons_none (PcEvent.processedHeight_eq_none hout),
      List.filterMap_nil, List.append_nil]
    exact hn
  · refine ⟨n + 1, ?_, ?_⟩
    · rw [hreports, heightsFrom_succ, hlag]
      exact hn.append_right _
    · show R.scheduler.height + ((n + 1 : ℕ) : ℤ) = pc'.height ctx lastBlockHeight + 1
      rw [hheight]
      push_cast
      omega

end Steps

theorem Inv.step (hlaw : ctx.Lawful lastBlockHeight height) (hI : Inv ctx lastBlockHeight height R)
    {R' : BlockchainReactor C S P B} (hs : Step ctx lastBlockHeight height R R') :
    Inv ctx lastBlockHeight height R' := by
  cases hs with
  | schedulerSend e he => exact hI.schedulerSend he
  | processBlock => exact hI.processBlock
  | schedulerHandle pre post e now sc' out hq hh => exact hI.schedulerHandle hq hh
  | schedulerNext => exact hI.schedulerNext
  | processorHandle pre post e pc' out hq hh => exact hI.processorHandle hlaw hq hh
  | processorNext out rest hout => exact hI.processorNext hout

theorem Reachable.inv {initialHeight : S → ℤ} {context : C} {startTime : Time}
    (hlaw : ctx.Lawful lastBlockHeight height)
    (hstart : lastBlockHeight (ctx.tmState context) = 0 →
      initialHeight (ctx.tmState context) = 1)
    (hr : Reachable ctx lastBlockHeight initialHeight height context startTime R) :
    Inv ctx lastBlockHeight height R := by
  induction hr with
  | start => exact .newReactor context startTime hstart
  | step _ hs ih => exact ih.step hlaw hs

end BlockchainReactor

end Tenderdash.Blockchain
