import Mathlib.Data.Int.Interval
import Tenderdash.Lib.Except
import Tenderdash.Blockchain.SchedulerMaps

/-!
# The scheduler's bookkeeping over whole runs

The scheduler records the state of a block twice: in `blockStates`, and by the peer named
in `pendingBlocks` (with the time in `pendingTime`) or in `receivedBlocks`.  `Inv` says the
two records agree, that every peer they name is a ready peer at or above that height, and
that every height the scheduler tracks lies in the window of `targetPending` heights from
the next height to process.

`Inv` holds of `newScheduler`, after the `bcResetState` the reactor sends it first, and is
kept by every handler on every other event (`Inv.handle`), so it holds of every state the
scheduler reaches (`Reachable.inv`).  From it, a handler panics only on a
`pcBlockProcessed` for a height other than `height` (`Inv.handle_ok_iff`), so over any run of
events the scheduler's routine panics only there; and `rTrySchedule` never fails to mark the
block it chose: it asks a peer whose range holds the lowest `New` height and that has the
fewest pending requests (`Inv.handleTrySchedule_spec`).
-/

namespace Tenderdash.Blockchain.Scheduler

open MapLoop

variable {P B : Type} [LinearOrder P]

/-- Peer `p` is in `peers`, `Ready`, and reports height `h` or above. -/
def ReadyAbove (sc : Scheduler P) (p : P) (h : ℤ) : Prop :=
  ∃ peer, sc.peers.lookup p = some peer ∧ peer.state = .ready ∧ h ≤ peer.height

/-- The bookkeeping invariant of the scheduler. -/
structure Inv (sc : Scheduler P) : Prop where
  pending_iff : ∀ h, sc.blockStates.lookup h = some .pending ↔ h ∈ sc.pendingBlocks
  pendingTime_iff : ∀ h, h ∈ sc.pendingTime ↔ h ∈ sc.pendingBlocks
  received_iff : ∀ h, sc.blockStates.lookup h = some .received ↔ h ∈ sc.receivedBlocks
  pending_ready : ∀ h p, sc.pendingBlocks.lookup h = some p → sc.ReadyAbove p h
  received_ready : ∀ h p, sc.receivedBlocks.lookup h = some p → sc.ReadyAbove p h
  peerID_eq : ∀ p peer, sc.peers.lookup p = some peer → peer.peerID = p
  window : ∀ h ∈ sc.blockStates, sc.height ≤ h ∧ h < sc.height + sc.targetPending
  targetPending_eq : sc.targetPending = 10

variable {sc sc' : Scheduler P}

/-- A write to one peer that keeps a ready peer ready, at its height or above, keeps every
peer that is ready at a height. -/
theorem ReadyAbove.insert {p q : P} {h : ℤ} {peer' : ScPeer P} (hq : sc.ReadyAbove q h)
    (hmono : ∀ peer, sc.peers.lookup p = some peer → peer.state = .ready →
      peer'.state = .ready ∧ peer.height ≤ peer'.height) :
    ReadyAbove { sc with peers := sc.peers.insert p peer' } q h := by
  obtain ⟨peer, hpeer, hready, hh⟩ := hq
  by_cases hqp : q = p
  · subst hqp
    obtain ⟨hready', hle⟩ := hmono peer hpeer hready
    exact ⟨peer', AList.lookup_insert _, hready', hh.trans hle⟩
  · exact ⟨peer, by rw [AList.lookup_insert_ne hqp]; exact hpeer, hready, hh⟩

theorem Inv.newScheduler (initHeight : ℤ) (startTime : Time) :
    Inv (Scheduler.newScheduler initHeight startTime : Scheduler P) where
  pending_iff _ := by simp [Scheduler.newScheduler]
  pendingTime_iff _ := by simp [Scheduler.newScheduler]
  received_iff _ := by simp [Scheduler.newScheduler]
  pending_ready _ _ h := by simp [Scheduler.newScheduler] at h
  received_ready _ _ h := by simp [Scheduler.newScheduler] at h
  peerID_eq _ _ h := by simp [Scheduler.newScheduler] at h
  window _ h := by simp [Scheduler.newScheduler] at h
  targetPending_eq := rfl

/-- Writing a peer record keeps the invariant if the record carries the peer's ID and keeps
a ready peer ready at its height or above. -/
theorem Inv.insert_peer (hI : Inv sc) {p : P} {peer' : ScPeer P} (hid : peer'.peerID = p)
    (hmono : ∀ peer, sc.peers.lookup p = some peer → peer.state = .ready →
      peer'.state = .ready ∧ peer.height ≤ peer'.height) :
    Inv { sc with peers := sc.peers.insert p peer' } where
  pending_iff := hI.pending_iff
  pendingTime_iff := hI.pendingTime_iff
  received_iff := hI.received_iff
  pending_ready h q hq := (hI.pending_ready h q hq).insert hmono
  received_ready h q hq := (hI.received_ready h q hq).insert hmono
  peerID_eq q qpeer hq := by
    dsimp only at hq
    by_cases hqp : q = p
    · subst hqp
      rw [AList.lookup_insert, Option.some.injEq] at hq
      exact hq ▸ hid
    · rw [AList.lookup_insert_ne hqp] at hq
      exact hI.peerID_eq q qpeer hq
  window := hI.window
  targetPending_eq := hI.targetPending_eq

theorem Inv.ensurePeer (hI : Inv sc) (p : P) : Inv (sc.ensurePeer p).1 := by
  cases hp : sc.peers.lookup p with
  | some peer => rwa [ensurePeer_of_lookup_some hp]
  | none =>
    rw [ensurePeer_of_lookup_none hp]
    exact hI.insert_peer rfl fun peer h ↦ absurd (hp.symm.trans h) (by simp)

theorem Inv.touchPeer (hI : Inv sc) {p : P} {time : Time} (ht : sc.touchPeer p time = .ok sc') :
    Inv sc' := by
  obtain ⟨peer, hp, -, rfl⟩ := touchPeer_eq_ok ht
  refine hI.insert_peer (hI.peerID_eq p peer hp) fun peer₀ h₀ hready ↦ ?_
  obtain rfl := Option.some.inj (hp.symm.trans h₀)
  exact ⟨hready, le_rfl⟩

theorem Inv.addNewBlocks (hI : Inv sc) : Inv sc.addNewBlocks := by
  obtain ⟨bs, heq, hl⟩ := addNewBlocks_spec sc
  have hstate : ∀ h, sc.getStateAtHeight h = .unknown → sc.height ≤ h →
      sc.blockStates.lookup h ≠ some .pending ∧ sc.blockStates.lookup h ≠ some .received := by
    intro h hu hh
    constructor <;> intro hs <;> simp [getStateAtHeight_eq_of_le hh hs] at hu
  rw [heq]
  refine ⟨fun h ↦ ?_, hI.pendingTime_iff, fun h ↦ ?_, hI.pending_ready, hI.received_ready,
    hI.peerID_eq, fun h hmem ↦ ?_, hI.targetPending_eq⟩
  · rcases hl h with hb | ⟨hu, hh, -, hnew⟩
    · rw [hb]
      exact hI.pending_iff h
    · rw [hnew, ← hI.pending_iff h]
      simpa using (hstate h hu hh).1
  · rcases hl h with hb | ⟨hu, hh, -, hnew⟩
    · rw [hb]
      exact hI.received_iff h
    · rw [hnew, ← hI.received_iff h]
      simpa using (hstate h hu hh).2
  · rcases hl h with hb | ⟨-, hh, hlt, -⟩
    · have hmem' : (sc.blockStates.lookup h).isSome := by
        rw [← hb]
        exact AList.lookup_isSome.mpr hmem
      exact hI.window h (AList.lookup_isSome.mp hmem')
    · exact ⟨hh, hlt⟩

/-- The state `removePeer` leaves at a height, read against the map `a` that records state
`x`: the height holds `x` after it exactly when `a` still names a peer there.  `b` is the
other map, and `M` the height above which blocks are forgotten. -/
theorem release_eq_some_iff {x : BlockState} (hx : x ≠ .new) {M h : ℤ} {p : P}
    {bs : Option BlockState} {a b : Option P} {R : Prop} [Decidable R]
    (hR : R ↔ a = some p ∨ b = some p) (hbs : bs = some x ↔ a.isSome)
    (hb : bs = some x → b ≠ some p) (hkeep : ∀ q, a = some q → q ≠ p → ¬ M < h) :
    (if M < h then none else if R then some .new else bs) = some x ↔
      (if a = some p then none else a).isSome := by
  constructor
  · intro H
    have hM : ¬ M < h := fun hM ↦ by simp [hM] at H
    have hR' : ¬ R := fun hR' ↦ hx (by simpa [hM, hR'] using H.symm)
    rw [if_neg hM, if_neg hR'] at H
    rw [if_neg (not_or.mp (mt hR.mpr hR')).1]
    exact hbs.mp H
  · intro H
    split_ifs at H with hap
    · simp at H
    obtain ⟨q, hq⟩ := Option.isSome_iff_exists.mp H
    have hbx := hbs.mpr H
    rw [if_neg (hkeep q hq fun e ↦ hap (e ▸ hq)),
      if_neg fun hR' ↦ (hR.mp hR').elim hap (hb hbx), hbx]

/-- `removePeer` keeps the invariant: it releases exactly the blocks the invariant ties to
the peer, and the blocks above the highest other ready peer it forgets are neither pending
from nor received by another peer. -/
theorem Inv.removePeer (hI : Inv sc) (p : P) : Inv (sc.removePeer p) := by
  cases hp : sc.peers.lookup p with
  | none => rwa [removePeer_of_lookup_none hp]
  | some peer =>
  by_cases hs : peer.state = .removed
  · rwa [removePeer_of_removed hp hs]
  obtain ⟨M, hM, hpeers, hheight, htarget, hlook⟩ := removePeer_spec hp hs
  have hbelow : ∀ h q, sc.ReadyAbove q h → q ≠ p → ¬ M < h := by
    rintro h q ⟨qpeer, hq, hready, hh⟩ hqp
    have hid : qpeer.peerID ≠ peer.peerID := by
      rw [hI.peerID_eq q qpeer hq, hI.peerID_eq p peer hp]
      exact hqp
    exact not_lt.mpr (hh.trans (hM q qpeer hq hqp hready hid))
  have hready : ∀ h q, sc.ReadyAbove q h → q ≠ p → (sc.removePeer p).ReadyAbove q h := by
    rintro h q ⟨qpeer, hq, hr, hh⟩ hqp
    exact ⟨qpeer, by rw [hpeers, AList.lookup_insert_ne hqp]; exact hq, hr, hh⟩
  have hpr : ∀ h, sc.blockStates.lookup h = some .pending →
      sc.receivedBlocks.lookup h ≠ some p := by
    intro h hb
    rw [AList.lookup_eq_none.mpr (by rw [← hI.received_iff, hb]; simp)]
    simp
  have hrp : ∀ h, sc.blockStates.lookup h = some .received →
      sc.pendingBlocks.lookup h ≠ some p := by
    intro h hb
    rw [AList.lookup_eq_none.mpr (by rw [← hI.pending_iff, hb]; simp)]
    simp
  constructor
  · intro h
    obtain ⟨hpb, -, -, hbs⟩ := hlook h
    rw [hbs, ← AList.lookup_isSome, hpb]
    exact release_eq_some_iff (by simp) or_comm
      (by rw [AList.lookup_isSome]; exact hI.pending_iff h) (hpr h)
      fun q hq ↦ hbelow h q (hI.pending_ready h q hq)
  · intro h
    obtain ⟨hpb, hpt, -, -⟩ := hlook h
    rw [← AList.lookup_isSome, ← AList.lookup_isSome, hpb, hpt]
    split_ifs
    · rfl
    · rw [AList.lookup_isSome, AList.lookup_isSome]
      exact hI.pendingTime_iff h
  · intro h
    obtain ⟨-, -, hrb, hbs⟩ := hlook h
    rw [hbs, ← AList.lookup_isSome, hrb]
    exact release_eq_some_iff (by simp) Iff.rfl
      (by rw [AList.lookup_isSome]; exact hI.received_iff h) (hrp h)
      fun q hq ↦ hbelow h q (hI.received_ready h q hq)
  · intro h q hq
    obtain ⟨hpb, -, -, -⟩ := hlook h
    rw [hpb] at hq
    split_ifs at hq with hpp
    exact hready h q (hI.pending_ready h q hq) fun e ↦ hpp (e ▸ hq)
  · intro h q hq
    obtain ⟨-, -, hrb, -⟩ := hlook h
    rw [hrb] at hq
    split_ifs at hq with hrr
    exact hready h q (hI.received_ready h q hq) fun e ↦ hrr (e ▸ hq)
  · intro q qpeer hq
    rw [hpeers] at hq
    by_cases hqp : q = p
    · subst hqp
      rw [AList.lookup_insert, Option.some.injEq] at hq
      rw [← hq]
      exact hI.peerID_eq q peer hp
    · rw [AList.lookup_insert_ne hqp] at hq
      exact hI.peerID_eq q qpeer hq
  · intro h hmem
    obtain ⟨-, -, -, hbs⟩ := hlook h
    rw [hheight, htarget]
    apply hI.window h
    rw [← AList.lookup_isSome, hbs] at hmem
    split_ifs at hmem with hM' hR
    · simp at hmem
    · rcases hR with hr | hpp
      · exact mem_of_lookup_eq_some ((hI.received_iff h).mpr (mem_of_lookup_eq_some hr))
      · exact mem_of_lookup_eq_some ((hI.pending_iff h).mpr (mem_of_lookup_eq_some hpp))
    · exact AList.lookup_isSome.mp hmem
  · rw [htarget]
    exact hI.targetPending_eq

theorem Inv.foldl_removePeer :
    ∀ (l : List P) {sc : Scheduler P}, Inv sc → Inv (l.foldl Scheduler.removePeer sc)
  | [], _, hI => hI
  | p :: l, _, hI => Inv.foldl_removePeer l (hI.removePeer p)

theorem Inv.setPeerRange (hI : Inv sc) (p : P) (base height : ℤ) :
    Inv (sc.setPeerRange p base height).1 := by
  have hI₁ := hI.ensurePeer p
  have hp := lookup_ensurePeer sc p
  rcases hE : sc.ensurePeer p with ⟨sc₁, peer⟩
  rw [hE] at hI₁ hp
  simp only [Scheduler.setPeerRange, hE]
  split_ifs with hremoved hlower hbase
  · exact hI₁
  · exact hI₁.removePeer p
  · exact hI₁.removePeer p
  · refine Inv.addNewBlocks
      (hI₁.insert_peer (hI₁.peerID_eq p peer hp) fun peer₀ h₀ hready ↦ ?_)
    obtain rfl := Option.some.inj (hp.symm.trans h₀)
    exact ⟨rfl, not_lt.mp hlower⟩

theorem Inv.markPending (hI : Inv sc) {p : P} {h : ℤ} {time : Time}
    (hm : sc.markPending p h time = .ok sc') : Inv sc' := by
  obtain ⟨hnew, peer, hp, hready, -, hheight, rfl⟩ := markPending_eq_ok hm
  obtain ⟨-, hb⟩ := lookup_of_getStateAtHeight (by simp) (by simp) hnew
  have hnr : h ∉ sc.receivedBlocks := by
    rw [← hI.received_iff, hb]
    simp
  refine ⟨fun k ↦ ?_, fun k ↦ ?_, fun k ↦ ?_, fun k q hq ↦ ?_, hI.received_ready,
    hI.peerID_eq, fun k hk ↦ ?_, hI.targetPending_eq⟩
  · by_cases hkh : k = h
    · subst hkh
      simp
    · simpa [AList.lookup_insert_ne hkh, hkh] using hI.pending_iff k
  · simpa using or_congr_right (hI.pendingTime_iff k)
  · by_cases hkh : k = h
    · subst hkh
      simpa using hnr
    · simpa [AList.lookup_insert_ne hkh] using hI.received_iff k
  · by_cases hkh : k = h
    · subst hkh
      simp only [AList.lookup_insert, Option.some.injEq] at hq
      exact hq ▸ ⟨peer, hp, hready, hheight⟩
    · rw [AList.lookup_insert_ne hkh] at hq
      exact hI.pending_ready k q hq
  · rcases (AList.mem_insert _).mp hk with rfl | hk
    · exact hI.window k (mem_of_lookup_eq_some hb)
    · exact hI.window k hk

/-- `markProcessed` at the next height to process keeps the invariant: every height it
tracks lies above the processed one. -/
theorem Inv.markProcessed (hI : Inv sc) (now : Time) : Inv (sc.markProcessed sc.height now) := by
  apply Inv.addNewBlocks
  refine ⟨fun k ↦ ?_, fun k ↦ ?_, fun k ↦ ?_, fun k q hq ↦ ?_, fun k q hq ↦ ?_,
    hI.peerID_eq, fun k hk ↦ ?_, hI.targetPending_eq⟩
  · by_cases hkh : k = sc.height
    · subst hkh
      simp
    · simpa [AList.lookup_erase_ne hkh, hkh] using hI.pending_iff k
  · simpa using and_congr_right fun _ ↦ hI.pendingTime_iff k
  · by_cases hkh : k = sc.height
    · subst hkh
      simp
    · simpa [AList.lookup_erase_ne hkh, hkh] using hI.received_iff k
  · by_cases hkh : k = sc.height
    · subst hkh
      simp at hq
    · exact hI.pending_ready k q (by simpa [AList.lookup_erase_ne hkh] using hq)
  · by_cases hkh : k = sc.height
    · subst hkh
      simp at hq
    · exact hI.received_ready k q (by simpa [AList.lookup_erase_ne hkh] using hq)
  · obtain ⟨hne, hk⟩ := (AList.mem_erase).mp hk
    have := hI.window k hk
    dsimp only
    omega

/-- The state a handler returns with `pure`. -/
theorem state_eq_of_pure {ε α β : Type} {a a' : α} {b b' : β}
    (h : (pure (a, b) : Except ε (α × β)) = .ok (a', b')) : a = a' :=
  (Prod.mk.inj (Except.pure_eq_ok.mp h)).1

variable {out : ScEvent P B}

theorem Inv.handleNoBlockResponse (hI : Inv sc) {p : P} {h : ℤ}
    (hs : sc.handleNoBlockResponse p h = .ok (sc', out)) : Inv sc' := by
  unfold Scheduler.handleNoBlockResponse at hs
  dsimp only at hs
  split at hs
  · exact state_eq_of_pure hs ▸ hI
  · split_ifs at hs
    · exact state_eq_of_pure hs ▸ hI
    · exact state_eq_of_pure hs ▸ hI.removePeer p


theorem Inv.handleBlockProcessed (hI : Inv sc) {now : Time} {h : ℤ}
    (hs : sc.handleBlockProcessed now h = .ok (sc', out)) : Inv sc' := by
  unfold Scheduler.handleBlockProcessed at hs
  by_cases hh : h = sc.height
  · subst hh
    rw [if_neg (not_not_intro rfl)] at hs
    dsimp only at hs
    split_ifs at hs <;> exact state_eq_of_pure hs ▸ hI.markProcessed now
  · rw [if_pos hh] at hs
    exact absurd hs Except.throw_ne_ok


theorem Inv.handleBlockProcessError (hI : Inv sc) {first second : P}
    (hs : sc.handleBlockProcessError first second = .ok (sc', out)) : Inv sc' := by
  unfold Scheduler.handleBlockProcessError at hs
  dsimp only at hs
  have hI₁ := hI.removePeer first
  split_ifs at hs
  · exact state_eq_of_pure hs ▸ hI₁.removePeer second
  · exact state_eq_of_pure hs ▸ hI₁.removePeer second
  · exact state_eq_of_pure hs ▸ hI₁
  · exact state_eq_of_pure hs ▸ hI₁

theorem Inv.handleRemovePeer (hI : Inv sc) {p : P}
    (hs : sc.handleRemovePeer p = .ok (sc', out)) : Inv sc' := by
  unfold Scheduler.handleRemovePeer at hs
  dsimp only at hs
  split_ifs at hs <;> exact state_eq_of_pure hs ▸ hI.removePeer p


theorem Inv.handleTrySchedule (hI : Inv sc) {now time : Time}
    (hs : sc.handleTrySchedule now time = .ok (sc', out)) : Inv sc' := by
  unfold Scheduler.handleTrySchedule at hs
  dsimp only at hs
  split_ifs at hs
  · exact state_eq_of_pure hs ▸ hI
  · exact state_eq_of_pure hs ▸ hI
  split at hs
  · exact state_eq_of_pure hs ▸ hI
  · exact absurd hs Except.throw_ne_ok
  split at hs
  · exact state_eq_of_pure hs ▸ hI
  · rename_i hm
    exact state_eq_of_pure hs ▸ hI.markPending hm


theorem Inv.handleStatusResponse (hI : Inv sc) {p : P} {base h : ℤ}
    (hs : sc.handleStatusResponse p base h = .ok (sc', out)) : Inv sc' := by
  unfold Scheduler.handleStatusResponse at hs
  have hI₁ := hI.setPeerRange p base h
  split at hs <;>
  · rename_i heq
    rw [heq] at hI₁
    exact state_eq_of_pure hs ▸ hI₁


/-- `bcResetState`, sent to a new scheduler, gives a state with the invariant. -/
theorem Inv.handleResetState_newScheduler {initHeight : ℤ} {startTime now : Time}
    {lastBlockHeight initialHeight : ℤ}
    (hs : (Scheduler.newScheduler initHeight startTime : Scheduler P).handleResetState now
      lastBlockHeight initialHeight = .ok (sc', out)) : Inv sc' := by
  unfold Scheduler.handleResetState at hs
  refine state_eq_of_pure hs ▸ Inv.addNewBlocks ?_
  have hI := Inv.newScheduler (P := P) initHeight startTime
  refine ⟨hI.pending_iff, hI.pendingTime_iff, hI.received_iff, hI.pending_ready,
    hI.received_ready, hI.peerID_eq, fun h hh ↦ ?_, hI.targetPending_eq⟩
  simp [Scheduler.newScheduler] at hh

/-! ## Scheduling a block -/

omit [LinearOrder P] in
/-- `nextHeightToSchedule`, when it does not return `-1`, returns the lowest `New` height. -/
theorem nextHeightToSchedule_spec (hne : sc.nextHeightToSchedule ≠ -1) :
    sc.blockStates.lookup sc.nextHeightToSchedule = some .new ∧
      ∀ k, sc.blockStates.lookup k = some .new → sc.nextHeightToSchedule ≤ k := by
  unfold nextHeightToSchedule at hne ⊢
  dsimp only at hne ⊢
  set m := sc.blockStates.entries.foldl nextHeightStep I64.maxValue with hm
  rw [if_neg (fun h ↦ hne (if_pos h))]
  have hstep : ∀ m e, nextHeightStep m e = m ∨ e.2 = .new ∧ nextHeightStep m e = e.1 := by
    intro m e
    unfold nextHeightStep
    split_ifs with h
    · exact .inr ⟨h.1, rfl⟩
    · exact .inl rfl
  have hle : ∀ m e, nextHeightStep m e ≤ m := by
    intro m e
    unfold nextHeightStep
    split_ifs with h
    · exact h.2.le
    · exact le_rfl
  constructor
  · rcases foldl_eq_or_mem (fun e ↦ e.2 = .new) hstep sc.blockStates.entries I64.maxValue with
      h | ⟨e, he, hnew, h⟩
    · exact absurd (if_pos h) hne
    · rw [← hm] at h
      rw [h, ← hnew]
      exact AList.mem_lookup_iff.mpr he
  · intro k hk
    refine foldl_le_of_mem hle (x := ⟨k, .new⟩) (fun m ↦ ?_) (AList.mem_lookup_iff.mp hk) _
    unfold nextHeightStep
    split_ifs with h
    · exact le_rfl
    · exact not_lt.mp fun hlt ↦ h ⟨rfl, hlt⟩

/-- With the invariant, the peers `getPeersWithHeight` returns are the ready peers whose
range holds the height. -/
theorem Inv.mem_getPeersWithHeight (hI : Inv sc) {p : P} {h : ℤ} :
    p ∈ sc.getPeersWithHeight h ↔ ∃ peer, sc.peers.lookup p = some peer ∧
      peer.state = .ready ∧ peer.base ≤ h ∧ h ≤ peer.height := by
  unfold getPeersWithHeight
  simp only [List.mem_map, List.mem_filter, decide_eq_true_eq]
  constructor
  · rintro ⟨⟨q, qpeer⟩, ⟨hmem, hready, hbase, hheight⟩, rfl⟩
    have hq := AList.mem_lookup_iff.mpr hmem
    rw [hI.peerID_eq q qpeer hq]
    exact ⟨qpeer, hq, hready, hbase, hheight⟩
  · rintro ⟨peer, hp, hready, hbase, hheight⟩
    exact ⟨⟨p, peer⟩, ⟨AList.mem_lookup_iff.mp hp, hready, hbase, hheight⟩,
      hI.peerID_eq p peer hp⟩

/-- Distinct heights the scheduler tracks are at most `targetPending`: they lie in the
window. -/
theorem Inv.length_le_targetPending (hI : Inv sc) {l : List ℤ} (hnodup : l.Nodup)
    (hl : ∀ k ∈ l, k ∈ sc.blockStates) : l.length ≤ sc.targetPending := by
  have hsub : l.toFinset ⊆ Finset.Ico sc.height (sc.height + sc.targetPending) := by
    intro k hk
    exact Finset.mem_Ico.mpr (hI.window k (hl k (List.mem_toFinset.mp hk)))
  calc l.length
      = l.toFinset.card := (List.toFinset_card_of_nodup hnodup).symm
    _ ≤ (Finset.Ico sc.height (sc.height + sc.targetPending)).card := Finset.card_le_card hsub
    _ = sc.targetPending := by simp

/-- A peer has at most `targetPending` pending requests. -/
theorem Inv.length_pendingFrom_le (hI : Inv sc) (p : P) :
    (sc.pendingFrom p).length ≤ sc.targetPending := by
  refine hI.length_le_targetPending
    ((sc.pendingBlocks.keys_nodup).sublist ((List.filter_sublist).map Sigma.fst)) fun k hk ↦ ?_
  obtain ⟨e, he, rfl⟩ := List.mem_map.mp hk
  exact mem_of_lookup_eq_some ((hI.pending_iff e.1).mpr
    (mem_of_lookup_eq_some (AList.mem_lookup_iff.mpr (List.mem_filter.mp he).1)))

/-- With the invariant, `selectPeer` on a height some ready peer has returns one of those
peers with the fewest pending requests, and does not panic. -/
theorem Inv.selectPeer (hI : Inv sc) {h : ℤ} (hne : sc.getPeersWithHeight h ≠ []) :
    ∃ best ∈ sc.getPeersWithHeight h, sc.selectPeer h = .ok best ∧
      ∀ q ∈ sc.getPeersWithHeight h,
        (sc.pendingFrom best).length ≤ (sc.pendingFrom q).length := by
  have hsmall : ∀ q, ((sc.pendingFrom q).length : ℤ) < I64.maxValue := by
    intro q
    have := hI.length_pendingFrom_le q
    rw [hI.targetPending_eq] at this
    unfold I64.maxValue
    omega
  unfold Scheduler.selectPeer
  dsimp only
  rw [if_neg (mt List.length_eq_zero_iff.mp hne)]
  generalize sc.getPeersWithHeight h = peers at hne ⊢
  set f : ℤ → P → ℤ := fun m q ↦
    if ((sc.pendingFrom q).length : ℤ) < m then ((sc.pendingFrom q).length : ℤ) else m with hf
  set minPending := peers.foldl f I64.maxValue with hmin
  have hle : ∀ q ∈ peers, minPending ≤ (sc.pendingFrom q).length := by
    refine fun q hq ↦ foldl_le_of_mem (fun m x ↦ ?_) (fun m ↦ ?_) hq _
    · simp only [hf]
      split_ifs with h
      · exact h.le
      · exact le_rfl
    · simp only [hf]
      split_ifs with h
      · exact le_rfl
      · exact not_lt.mp h
  obtain ⟨q₀, hq₀, hmin₀⟩ : ∃ q ∈ peers, minPending = (sc.pendingFrom q).length := by
    have hstep : ∀ m x, f m x = m ∨ True ∧ f m x = ((sc.pendingFrom x).length : ℤ) := by
      intro m x
      simp only [hf]
      split_ifs
      · exact .inr ⟨trivial, rfl⟩
      · exact .inl rfl
    rcases foldl_eq_or_mem (fun _ ↦ True) hstep peers I64.maxValue with h | ⟨q, hq, -, h⟩
    · obtain ⟨q, hq⟩ := List.exists_mem_of_ne_nil peers hne
      exact absurd (h ▸ hle q hq) (not_le.mpr (hsmall q))
    · exact ⟨q, hq, h⟩
  have hgroup : peers.filter (fun q ↦ ((sc.pendingFrom q).length : ℤ) = minPending) ≠ [] :=
    List.ne_nil_of_mem (List.mem_filter.mpr ⟨hq₀, decide_eq_true hmin₀.symm⟩)
  have hperm := List.perm_insertionSort (· ≤ ·)
    (peers.filter fun q ↦ ((sc.pendingFrom q).length : ℤ) = minPending)
  obtain ⟨best, rest, hsort⟩ := List.exists_cons_of_ne_nil
    (fun h ↦ hgroup (List.Perm.nil_eq (h ▸ hperm)).symm)
  have hbest := hperm.mem_iff.mp (hsort ▸ List.mem_cons_self)
  obtain ⟨hbest, hcount⟩ := List.mem_filter.mp hbest
  refine ⟨best, hbest, ?_, fun q hq ↦ ?_⟩
  · unfold sortByID
    rw [hsort]
    rfl
  · have := hle q hq
    rw [← of_decide_eq_true hcount] at this
    exact_mod_cast this

variable [Inhabited P]

theorem Inv.markReceived (hI : Inv sc) {p : P} {h size : ℤ} {now : Time}
    (hm : sc.markReceived p h size now = .ok sc') : Inv sc' := by
  obtain ⟨hpend, hpeer, peer, lastRate, hp, rfl⟩ := markReceived_eq_ok hm
  obtain ⟨-, hb⟩ := lookup_of_getStateAtHeight (by simp) (by simp) hpend
  have hpb : sc.pendingBlocks.lookup h = some p := by
    obtain ⟨q, hq⟩ := Option.isSome_iff_exists.mp
      (AList.lookup_isSome.mpr ((hI.pending_iff h).mp hb))
    rw [hq, Option.getD_some] at hpeer
    rw [hq, hpeer]
  have hnr : h ∉ sc.receivedBlocks := by
    rw [← hI.received_iff, hb]
    simp
  let sc₁ : Scheduler P := { sc with
    blockStates := sc.blockStates.insert h .received
    pendingBlocks := sc.pendingBlocks.erase h
    pendingTime := sc.pendingTime.erase h
    receivedBlocks := sc.receivedBlocks.insert h p }
  have hI₁ : Inv sc₁ := by
    refine ⟨fun k ↦ ?_, fun k ↦ ?_, fun k ↦ ?_, fun k q hq ↦ ?_, fun k q hq ↦ ?_,
      hI.peerID_eq, fun k hk ↦ ?_, hI.targetPending_eq⟩
    · by_cases hkh : k = h
      · subst hkh
        simp [sc₁]
      · simpa [sc₁, AList.lookup_insert_ne hkh, hkh] using hI.pending_iff k
    · simpa [sc₁] using and_congr_right fun _ ↦ hI.pendingTime_iff k
    · by_cases hkh : k = h
      · subst hkh
        simp [sc₁]
      · simpa [sc₁, AList.lookup_insert_ne hkh, hkh] using hI.received_iff k
    · by_cases hkh : k = h
      · subst hkh
        simp [sc₁] at hq
      · exact hI.pending_ready k q (by simpa [sc₁, AList.lookup_erase_ne hkh] using hq)
    · by_cases hkh : k = h
      · subst hkh
        simp only [sc₁, AList.lookup_insert, Option.some.injEq] at hq
        exact hq ▸ hI.pending_ready k p hpb
      · exact hI.received_ready k q (by simpa [sc₁, AList.lookup_insert_ne hkh] using hq)
    · rcases (AList.mem_insert _).mp hk with rfl | hk
      · exact hI.window k (mem_of_lookup_eq_some hb)
      · exact hI.window k hk
  refine hI₁.insert_peer (hI.peerID_eq p peer hp) fun peer₀ h₀ hready ↦ ?_
  obtain rfl := Option.some.inj (hp.symm.trans h₀)
  exact ⟨hready, le_rfl⟩


theorem Inv.pruneHeightPeer (hI : Inv sc) (now : Time) : Inv (sc.pruneHeightPeer now) := by
  unfold Scheduler.pruneHeightPeer
  split
  · split_ifs
    · exact hI.removePeer _
    · exact hI
  · exact hI

theorem Inv.handleBlockResponse (hI : Inv sc) {height : B → ℤ} {time : Time} {p : P}
    {size : ℤ} {block : B}
    (hs : sc.handleBlockResponse height time p size block = .ok (sc', out)) :
    Inv sc' := by
  unfold Scheduler.handleBlockResponse at hs
  split at hs
  · exact state_eq_of_pure hs ▸ hI
  · rename_i sc₁ ht
    have hI₁ := hI.touchPeer ht
    split at hs
    · exact state_eq_of_pure hs ▸ hI₁.removePeer p
    · exact absurd hs Except.throw_ne_ok
    · rename_i sc₂ hm
      exact state_eq_of_pure hs ▸ hI₁.markReceived hm

theorem Inv.handleTryPrunePeer (hI : Inv sc) {now time : Time}
    (hs : sc.handleTryPrunePeer now time = .ok (sc', out)) : Inv sc' := by
  unfold Scheduler.handleTryPrunePeer at hs
  dsimp only at hs
  have hI₁ := hI.pruneHeightPeer now
  split_ifs at hs
  · exact state_eq_of_pure hs ▸ hI₁
  all_goals exact state_eq_of_pure hs ▸ Inv.foldl_removePeer _ hI₁

/-- Every handler but `handleResetState` keeps the invariant. -/
theorem Inv.handle (hI : Inv sc) {height : B → ℤ} {now : Time} {e : Event P B}
    (he : ∀ lastBlockHeight initialHeight, e ≠ .bcResetState lastBlockHeight initialHeight)
    (hs : sc.handle height now e = .ok (sc', out)) : Inv sc' := by
  cases e with
  | bcResetState lastBlockHeight initialHeight =>
    exact absurd rfl (he lastBlockHeight initialHeight)
  | bcStatusResponse p base h => exact hI.handleStatusResponse hs
  | bcBlockResponse time p size block => exact hI.handleBlockResponse hs
  | bcNoBlockResponse p h => exact hI.handleNoBlockResponse hs
  | rTrySchedule time => exact hI.handleTrySchedule hs
  | bcAddNewPeer p => exact state_eq_of_pure hs ▸ hI.ensurePeer p
  | bcRemovePeer p => exact hI.handleRemovePeer hs
  | rTryPrunePeer time => exact hI.handleTryPrunePeer hs
  | pcBlockProcessed h p => exact hI.handleBlockProcessed hs
  | pcBlockVerificationFailure h first second => exact hI.handleBlockProcessError hs


omit [LinearOrder P] [Inhabited P] in
/-- `pcBlockProcessed` moves `height` to the next height. -/
theorem height_handleBlockProcessed {now : Time} {h : ℤ}
    (hs : sc.handleBlockProcessed now h = .ok (sc', out)) : sc'.height = sc.height + 1 := by
  unfold Scheduler.handleBlockProcessed at hs
  by_cases hh : h = sc.height
  · subst hh
    rw [if_neg (not_not_intro rfl)] at hs
    dsimp only at hs
    split_ifs at hs <;>
    · obtain rfl := state_eq_of_pure hs
      exact height_markProcessed _ _ _
  · exact absurd hs (by rw [if_pos hh]; exact Except.throw_ne_ok)

/-- Every other event but `bcResetState` leaves `height` as it is. -/
theorem height_handle_of_ne {height : B → ℤ} {now : Time} {e : Event P B}
    (he : ∀ lastBlockHeight initialHeight, e ≠ .bcResetState lastBlockHeight initialHeight)
    (hp : ∀ h p, e ≠ .pcBlockProcessed h p) (hs : sc.handle height now e = .ok (sc', out)) :
    sc'.height = sc.height := by
  cases e with
  | bcResetState lastBlockHeight initialHeight =>
    exact absurd rfl (he lastBlockHeight initialHeight)
  | pcBlockProcessed h p => exact absurd rfl (hp h p)
  | bcStatusResponse p base h =>
    replace hs : sc.handleStatusResponse p base h = .ok (sc', out) := hs
    unfold Scheduler.handleStatusResponse at hs
    have h₁ := height_setPeerRange sc p base h
    split at hs <;>
    · rename_i heq
      rw [heq] at h₁
      exact state_eq_of_pure hs ▸ h₁
  | bcBlockResponse time p size block =>
    replace hs : sc.handleBlockResponse height time p size block = .ok (sc', out) := hs
    unfold Scheduler.handleBlockResponse at hs
    split at hs
    · exact (state_eq_of_pure hs).symm ▸ rfl
    rename_i sc₁ ht
    split at hs
    · exact state_eq_of_pure hs ▸ (height_removePeer sc₁ p).trans (height_touchPeer ht)
    · exact absurd hs Except.throw_ne_ok
    · rename_i sc₂ hm
      exact state_eq_of_pure hs ▸ (height_markReceived hm).trans (height_touchPeer ht)
  | bcNoBlockResponse p h =>
    replace hs : sc.handleNoBlockResponse p h = .ok (sc', out) := hs
    unfold Scheduler.handleNoBlockResponse at hs
    dsimp only at hs
    split at hs
    · exact (state_eq_of_pure hs).symm ▸ rfl
    split_ifs at hs
    · exact (state_eq_of_pure hs).symm ▸ rfl
    · exact state_eq_of_pure hs ▸ height_removePeer sc p
  | rTrySchedule time =>
    replace hs : sc.handleTrySchedule now time = .ok (sc', out) := hs
    unfold Scheduler.handleTrySchedule at hs
    dsimp only at hs
    split_ifs at hs
    · exact (state_eq_of_pure hs).symm ▸ rfl
    · exact (state_eq_of_pure hs).symm ▸ rfl
    split at hs
    · exact (state_eq_of_pure hs).symm ▸ rfl
    · exact absurd hs Except.throw_ne_ok
    split at hs
    · exact (state_eq_of_pure hs).symm ▸ rfl
    · rename_i hm
      exact state_eq_of_pure hs ▸ height_markPending hm
  | bcAddNewPeer p => exact state_eq_of_pure hs ▸ height_ensurePeer sc p
  | bcRemovePeer p =>
    replace hs : sc.handleRemovePeer p = .ok (sc', out) := hs
    unfold Scheduler.handleRemovePeer at hs
    dsimp only at hs
    split_ifs at hs <;> exact state_eq_of_pure hs ▸ height_removePeer sc p
  | rTryPrunePeer time =>
    replace hs : sc.handleTryPrunePeer now time = .ok (sc', out) := hs
    unfold Scheduler.handleTryPrunePeer at hs
    dsimp only at hs
    split_ifs at hs <;>
    · obtain rfl := state_eq_of_pure hs
      simp
  | pcBlockVerificationFailure h first second =>
    replace hs : sc.handleBlockProcessError first second = .ok (sc', out) := hs
    unfold Scheduler.handleBlockProcessError at hs
    dsimp only at hs
    split_ifs at hs <;>
    · obtain rfl := state_eq_of_pure hs
      simp

/-- What `rTrySchedule` may answer from `sc` at `time`: the scheduler unchanged, with a
timeout, with nothing to schedule, or with the lowest `New` height when no ready peer has it;
or a request for the lowest `New` height to a ready peer whose range holds it and that has
the fewest pending requests, with the block marked pending from that peer. -/
def TryScheduled (sc : Scheduler P) (time : Time) (sc' : Scheduler P) (out : ScEvent P B) :
    Prop :=
  sc' = sc ∧ (out = .scFinishedEv "timeout, no advance" ∨ out = .noOp ∨
    ∃ h, out = .scSchedulerFail (.noPeerForHeight h) ∧ sc.blockStates.lookup h = some .new ∧
      sc.getPeersWithHeight h = []) ∨
  ∃ p h peer, out = .scBlockRequest p h ∧ sc.blockStates.lookup h = some .new ∧
    (∀ k, sc.blockStates.lookup k = some .new → h ≤ k) ∧
    sc.peers.lookup p = some peer ∧ peer.state = .ready ∧ peer.base ≤ h ∧
    h ≤ peer.height ∧
    (∀ q ∈ sc.getPeersWithHeight h, (sc.pendingFrom p).length ≤ (sc.pendingFrom q).length) ∧
    sc' = { sc with
      blockStates := sc.blockStates.insert h .pending
      pendingBlocks := sc.pendingBlocks.insert h p
      pendingTime := sc.pendingTime.insert h time }

omit [Inhabited P] in
/-- With the invariant, `rTrySchedule` never fails to mark the block it chose. -/
theorem Inv.handleTrySchedule_spec (hI : Inv sc) (now time : Time) :
    ∃ (sc' : Scheduler P) (out : ScEvent P B), sc.handleTrySchedule now time = .ok (sc', out) ∧
      sc.TryScheduled time sc' out := by
  unfold Scheduler.handleTrySchedule
  by_cases htimeout : timeSub now sc.lastAdvance > sc.syncTimeout
  · rw [if_pos htimeout]
    exact ⟨sc, _, rfl, .inl ⟨rfl, .inl rfl⟩⟩
  rw [if_neg htimeout]
  dsimp only
  by_cases hnone : sc.nextHeightToSchedule = -1
  · rw [if_pos hnone]
    exact ⟨sc, _, rfl, .inl ⟨rfl, .inr (.inl rfl)⟩⟩
  rw [if_neg hnone]
  obtain ⟨hnew, hlowest⟩ := nextHeightToSchedule_spec hnone
  by_cases hpeers : sc.getPeersWithHeight sc.nextHeightToSchedule = []
  · have hfail : sc.selectPeer sc.nextHeightToSchedule =
        .error (.error (.noPeerForHeight sc.nextHeightToSchedule)) := by
      unfold Scheduler.selectPeer
      rw [if_pos (by rw [hpeers]; rfl)]
      rfl
    rw [hfail]
    exact ⟨sc, _, rfl, .inl ⟨rfl, .inr (.inr ⟨_, rfl, hnew, hpeers⟩)⟩⟩
  obtain ⟨best, hbest, hsel, hfew⟩ := hI.selectPeer hpeers
  obtain ⟨peer, hp, hready, hbase, hheight⟩ := hI.mem_getPeersWithHeight.mp hbest
  have hstate : sc.getStateAtHeight sc.nextHeightToSchedule = .new :=
    getStateAtHeight_eq_of_le (hI.window _ (mem_of_lookup_eq_some hnew)).1 hnew
  rw [hsel]
  dsimp only
  rw [markPending_of_ready hstate hp hready hbase hheight]
  exact ⟨_, _, rfl,
    .inr ⟨best, _, peer, rfl, hnew, hlowest, hp, hready, hbase, hheight, hfew, rfl⟩⟩

/-- With the invariant, a handler panics only on a `pcBlockProcessed` for a height other
than `height`. -/
theorem Inv.handle_ok_iff (hI : Inv sc) (height : B → ℤ) (now : Time) (e : Event P B) :
    (∃ r, sc.handle height now e = .ok r) ↔
      ∀ h p, e = .pcBlockProcessed h p → h = sc.height := by
  cases e with
  | pcBlockProcessed h p =>
    show (∃ r, sc.handleBlockProcessed now h = .ok r) ↔ _
    unfold Scheduler.handleBlockProcessed
    by_cases hh : h = sc.height
    · rw [if_neg (not_not_intro hh)]
      dsimp only
      refine ⟨fun _ _ _ heq ↦ by cases heq; exact hh, fun _ ↦ ?_⟩
      split_ifs
      · exact ⟨_, rfl⟩
      · exact ⟨_, rfl⟩
    · rw [if_pos hh]
      exact ⟨fun ⟨_, hs⟩ ↦ absurd hs Except.throw_ne_ok, fun H ↦ absurd (H h p rfl) hh⟩
  | bcBlockResponse time p size block =>
    refine ⟨(fun _ _ _ h ↦ nomatch h), fun _ ↦ ?_⟩
    show ∃ r, sc.handleBlockResponse height time p size block = .ok r
    unfold Scheduler.handleBlockResponse
    split
    · exact ⟨_, rfl⟩
    · rename_i sc₁ ht
      obtain ⟨peer, -, -, rfl⟩ := touchPeer_eq_ok ht
      split
      · exact ⟨_, rfl⟩
      · rename_i msg hm
        exact absurd hm (markReceived_ne_panic (by simp) msg)
      · exact ⟨_, rfl⟩
  | rTrySchedule time =>
    refine ⟨(fun _ _ _ h ↦ nomatch h), fun _ ↦ ?_⟩
    obtain ⟨_, _, hs, -⟩ := hI.handleTrySchedule_spec (B := B) now time
    exact ⟨_, hs⟩
  | bcStatusResponse p base h =>
    refine ⟨(fun _ _ _ h ↦ nomatch h), fun _ ↦ ?_⟩
    show ∃ r, sc.handleStatusResponse p base h = .ok r
    unfold Scheduler.handleStatusResponse
    split <;> exact ⟨_, rfl⟩
  | bcNoBlockResponse p h =>
    refine ⟨(fun _ _ _ h ↦ nomatch h), fun _ ↦ ?_⟩
    show ∃ r, sc.handleNoBlockResponse p h = .ok r
    unfold Scheduler.handleNoBlockResponse
    split
    · exact ⟨_, rfl⟩
    · split_ifs <;> exact ⟨_, rfl⟩
  | bcRemovePeer p =>
    refine ⟨(fun _ _ _ h ↦ nomatch h), fun _ ↦ ?_⟩
    show ∃ r, sc.handleRemovePeer p = .ok r
    unfold Scheduler.handleRemovePeer
    dsimp only
    split_ifs <;> exact ⟨_, rfl⟩
  | rTryPrunePeer time =>
    refine ⟨(fun _ _ _ h ↦ nomatch h), fun _ ↦ ?_⟩
    show ∃ r, sc.handleTryPrunePeer now time = .ok r
    unfold Scheduler.handleTryPrunePeer
    dsimp only
    split_ifs <;> exact ⟨_, rfl⟩
  | pcBlockVerificationFailure h first second =>
    refine ⟨(fun _ _ _ h ↦ nomatch h), fun _ ↦ ?_⟩
    show ∃ r, sc.handleBlockProcessError first second = .ok r
    unfold Scheduler.handleBlockProcessError
    dsimp only
    split_ifs <;> exact ⟨_, rfl⟩
  | bcResetState lastBlockHeight initialHeight =>
    exact ⟨(fun _ _ _ h ↦ nomatch h), fun _ ↦ ⟨_, rfl⟩⟩
  | bcAddNewPeer p =>
    exact ⟨(fun _ _ _ h ↦ nomatch h), fun _ ↦ ⟨_, rfl⟩⟩

/-! ## Runs -/

/-- The states the scheduler reaches: a new scheduler, the state after the `bcResetState`
the reactor sends it first, and every state a handler returns on another event. -/
inductive Reachable (height : B → ℤ) : Scheduler P → Prop
  | start (initHeight : ℤ) (startTime : Time) :
      Reachable height (Scheduler.newScheduler initHeight startTime)
  | reset {sc : Scheduler P} {out : ScEvent P B} (initHeight : ℤ) (startTime now : Time)
      (lastBlockHeight initialHeight : ℤ) :
      (Scheduler.newScheduler initHeight startTime).handle height now
        (.bcResetState lastBlockHeight initialHeight) = .ok (sc, out) →
      Reachable height sc
  | step {sc sc' : Scheduler P} {out : ScEvent P B} (now : Time) (e : Event P B) :
      Reachable height sc →
      (∀ lastBlockHeight initialHeight, e ≠ .bcResetState lastBlockHeight initialHeight) →
      sc.handle height now e = .ok (sc', out) → Reachable height sc'

theorem Reachable.inv {height : B → ℤ} (hr : Reachable height sc) : Inv sc := by
  induction hr with
  | start initHeight startTime => exact Inv.newScheduler initHeight startTime
  | reset initHeight startTime now lastBlockHeight initialHeight hs =>
    exact Inv.handleResetState_newScheduler hs
  | step now e _ he hs ih => exact ih.handle he hs

/-- What the scheduler's routine returns from a reachable state, after events other than
`bcResetState`, is reachable. -/
theorem Reachable.routine {height : B → ℤ} (hr : Reachable height sc)
    {events : List (Time × Event P B)}
    (hreset : ∀ te ∈ events, ∀ lastBlockHeight initialHeight,
      te.2 ≠ .bcResetState lastBlockHeight initialHeight)
    {outs : List (ScEvent P B)} (h : Routine.start (handle height) sc events = .ok (sc', outs)) :
    Reachable height sc' := by
  induction events generalizing sc outs with
  | nil =>
    obtain ⟨rfl, -⟩ := Prod.mk.inj (Except.ok.inj h)
    exact hr
  | cons te events ih =>
    obtain ⟨now, e⟩ := te
    simp only [Routine.start, Except.bind_eq_ok, Except.pure_eq_ok, Prod.mk.injEq] at h
    obtain ⟨⟨sc₁, out⟩, hs, ⟨sc₂, outs₂⟩, hrun, rfl, -⟩ := h
    exact ih (.step now e hr (hreset _ List.mem_cons_self) hs)
      (fun te hte ↦ hreset te (List.mem_cons_of_mem _ hte)) hrun

/-- The scheduler's routine as the reactor runs it: a new scheduler, the `bcResetState` the
reactor sends first, then other events, through reachable states. -/
theorem reachable_start_routine {height : B → ℤ} {initHeight : ℤ} {startTime now : Time}
    {lastBlockHeight initialHeight : ℤ} {events : List (Time × Event P B)}
    (hreset : ∀ te ∈ events, ∀ lastBlockHeight initialHeight,
      te.2 ≠ .bcResetState lastBlockHeight initialHeight)
    {outs : List (ScEvent P B)}
    (h : Routine.start (handle height) (newScheduler initHeight startTime)
      ((now, .bcResetState lastBlockHeight initialHeight) :: events) = .ok (sc', outs)) :
    Reachable height sc' := by
  simp only [Routine.start, Except.bind_eq_ok, Except.pure_eq_ok, Prod.mk.injEq] at h
  obtain ⟨⟨sc₁, out⟩, hs, ⟨sc₂, outs₂⟩, hrun, rfl, -⟩ := h
  exact (Reachable.reset initHeight startTime now lastBlockHeight initialHeight hs).routine
    hreset hrun

/-- Over every run, the scheduler's two records of a block agree, every peer they name is a
ready peer whose height reaches the block, and the heights it tracks are at most ten, all
within ten of the next height to process. -/
theorem reachable_bookkeeping {height : B → ℤ} (hr : Reachable height sc) :
    (∀ h, sc.blockStates.lookup h = some .pending ↔ h ∈ sc.pendingBlocks) ∧
    (∀ h, h ∈ sc.pendingTime ↔ h ∈ sc.pendingBlocks) ∧
    (∀ h, sc.blockStates.lookup h = some .received ↔ h ∈ sc.receivedBlocks) ∧
    (∀ h p, sc.pendingBlocks.lookup h = some p ∨ sc.receivedBlocks.lookup h = some p →
      ∃ peer, sc.peers.lookup p = some peer ∧ peer.state = .ready ∧ h ≤ peer.height) ∧
    (∀ h ∈ sc.blockStates, sc.height ≤ h ∧ h < sc.height + 10) ∧
    sc.blockStates.entries.length ≤ 10 := by
  have hI := hr.inv
  refine ⟨hI.pending_iff, hI.pendingTime_iff, hI.received_iff, ?_, ?_, ?_⟩
  · rintro h p (hp | hp)
    · exact hI.pending_ready h p hp
    · exact hI.received_ready h p hp
  · intro h hh
    have hw := hI.window h hh
    rw [hI.targetPending_eq] at hw
    exact_mod_cast hw
  · have hlen := hI.length_le_targetPending sc.blockStates.keys_nodup
      fun k hk ↦ AList.mem_keys.mpr hk
    rw [hI.targetPending_eq] at hlen
    calc sc.blockStates.entries.length = sc.blockStates.keys.length := (List.length_map _).symm
      _ ≤ 10 := hlen

/-- Peer 7 reports blocks 1 to 3, blocks 1 and 2 are requested from it, and block 1 arrives:
block 1 is received, block 2 pending and block 3 new, and the two records agree. -/
theorem reachable_bookkeeping_received :
    ∃ r : Scheduler ℕ × List (ScEvent ℕ ℕ),
      Routine.start (handle (fun b : ℕ ↦ (b : ℤ))) (newScheduler 1 0)
        [(0, .bcResetState 0 1), (0, .bcStatusResponse 7 1 3), (0, .rTrySchedule 0),
          (0, .rTrySchedule 0), (5, .bcBlockResponse 5 7 100 1)] = .ok r ∧
      (r.1.blockStates.lookup 1, r.1.blockStates.lookup 2, r.1.blockStates.lookup 3) =
        (some .received, some .pending, some .new) ∧
      let sc := r.1
      (∀ h, sc.blockStates.lookup h = some .pending ↔ h ∈ sc.pendingBlocks) ∧
      (∀ h, h ∈ sc.pendingTime ↔ h ∈ sc.pendingBlocks) ∧
      (∀ h, sc.blockStates.lookup h = some .received ↔ h ∈ sc.receivedBlocks) ∧
      (∀ h p, sc.pendingBlocks.lookup h = some p ∨ sc.receivedBlocks.lookup h = some p →
        ∃ peer, sc.peers.lookup p = some peer ∧ peer.state = .ready ∧ h ≤ peer.height) ∧
      (∀ h ∈ sc.blockStates, sc.height ≤ h ∧ h < sc.height + 10) ∧
      sc.blockStates.entries.length ≤ 10 := by
  obtain ⟨r, hrun, hstates⟩ := Except.exists_eq_ok_of_toOption_map
    (show (Routine.start (handle (fun b : ℕ ↦ (b : ℤ))) (newScheduler 1 0 : Scheduler ℕ)
        [(0, .bcResetState 0 1), (0, .bcStatusResponse 7 1 3), (0, .rTrySchedule 0),
          (0, .rTrySchedule 0), (5, .bcBlockResponse 5 7 100 1)]).toOption.map
        (fun r ↦ (r.1.blockStates.lookup 1, r.1.blockStates.lookup 2, r.1.blockStates.lookup 3)) =
      some (some .received, some .pending, some .new) by decide)
  have hr := reachable_start_routine (fun te hte _ _ h ↦ by
    simp only [List.mem_cons, List.not_mem_nil, or_false] at hte
    rcases hte with rfl | rfl | rfl | rfl <;> cases h) hrun
  exact ⟨r, hrun, hstates, reachable_bookkeeping hr⟩

/-- Over every sequence of events after the first `bcResetState`, the scheduler's routine
either handles them all, or panics, and then at a `pcBlockProcessed` for a height other than
the one the scheduler is at: no other event, in no state it reaches, makes it panic. -/
theorem routine_ok_or_processed_height_panic {height : B → ℤ} (hr : Reachable height sc)
    (events : List (Time × Event P B))
    (hreset : ∀ te ∈ events, ∀ lastBlockHeight initialHeight,
      te.2 ≠ .bcResetState lastBlockHeight initialHeight) :
    (∃ r, Routine.start (handle height) sc events = .ok r) ∨
    ∃ msg, Routine.start (handle height) sc events = .error msg ∧
      ∃ pre now h p post sc' outs, events = pre ++ (now, .pcBlockProcessed h p) :: post ∧
        Routine.start (handle height) sc pre = .ok (sc', outs) ∧ h ≠ sc'.height := by
  induction events generalizing sc with
  | nil => exact .inl ⟨_, rfl⟩
  | cons te events ih =>
    obtain ⟨now, e⟩ := te
    by_cases hbad : ∃ h p, e = .pcBlockProcessed h p ∧ h ≠ sc.height
    · obtain ⟨h, p, rfl, hh⟩ := hbad
      obtain ⟨msg, hpanic⟩ :
          ∃ msg, sc.handle height now (.pcBlockProcessed h p) = .error msg := by
        refine ⟨"processed height " ++ toString h ++ ", but expected height " ++
          toString sc.height, ?_⟩
        show sc.handleBlockProcessed now h = _
        unfold Scheduler.handleBlockProcessed
        rw [if_pos hh]
        rfl
      refine .inr ⟨msg, by simp [Routine.start, hpanic], [], now, h, p, events, sc, [], rfl, rfl,
        hh⟩
    push Not at hbad
    obtain ⟨⟨sc₁, out⟩, hs⟩ := (hr.inv.handle_ok_iff height now e).mpr hbad
    have hr₁ := Reachable.step now e hr (hreset (now, e) List.mem_cons_self) hs
    rcases ih hr₁ fun te hte ↦ hreset te (List.mem_cons_of_mem _ hte) with
      ⟨⟨sc₂, outs⟩, hrun⟩ |
        ⟨msg, hrun, pre, now', h, p, post, sc', outs, rfl, hpre, hh⟩
    · exact .inl ⟨(sc₂, out :: outs), by simp [Routine.start, hs, hrun]⟩
    · refine .inr ⟨msg, by simp [Routine.start, hs, hrun], (now, e) :: pre, now', h, p, post,
        sc',         out :: outs, rfl, by simp [Routine.start, hs, hpre], hh⟩

theorem routine_ok_or_processed_height_panic_newScheduler :
    Reachable (fun b : ℕ ↦ (b : ℤ)) (newScheduler 1 0 : Scheduler ℕ) ∧
    (∀ te ∈ [((0 : Time), (.bcStatusResponse 7 1 3 : Event ℕ ℕ)), (0, .rTrySchedule 0)],
      ∀ lastBlockHeight initialHeight, te.2 ≠ .bcResetState lastBlockHeight initialHeight) ∧
    ((∃ r, Routine.start (handle (fun b : ℕ ↦ (b : ℤ))) (newScheduler 1 0 : Scheduler ℕ)
        [(0, .bcStatusResponse 7 1 3), (0, .rTrySchedule 0)] = .ok r) ∨
      ∃ msg, Routine.start (handle (fun b : ℕ ↦ (b : ℤ))) (newScheduler 1 0 : Scheduler ℕ)
          [(0, .bcStatusResponse 7 1 3), (0, .rTrySchedule 0)] = .error msg ∧
        ∃ pre now h p post sc' outs,
          [((0 : Time), (.bcStatusResponse 7 1 3 : Event ℕ ℕ)), (0, .rTrySchedule 0)] =
            pre ++ (now, .pcBlockProcessed h p) :: post ∧
          Routine.start (handle (fun b : ℕ ↦ (b : ℤ)))
              (newScheduler 1 0 : Scheduler ℕ) pre =
            .ok (sc', outs) ∧ h ≠ sc'.height) := by
  have hreset :
      ∀ te ∈ [((0 : Time), (.bcStatusResponse 7 1 3 : Event ℕ ℕ)), (0, .rTrySchedule 0)],
      ∀ lastBlockHeight initialHeight, te.2 ≠ .bcResetState lastBlockHeight initialHeight := by
    intro te hte _ _ h
    simp only [List.mem_cons, List.not_mem_nil, or_false] at hte
    rcases hte with rfl | rfl <;> cases h
  have hr : Reachable (fun b : ℕ ↦ (b : ℤ)) (newScheduler 1 0 : Scheduler ℕ) := .start 1 0
  exact ⟨hr, hreset, routine_ok_or_processed_height_panic hr _ hreset⟩

example : (Routine.start (handle (fun b : ℕ ↦ (b : ℤ))) (newScheduler 1 0 : Scheduler ℕ)
    [(0, .bcResetState 0 1), (0, .bcStatusResponse 7 1 3), (0, .rTrySchedule 0),
      (5, .bcBlockResponse 5 7 100 1), (6, .pcBlockProcessed 1 7)]).toOption.map Prod.snd =
    some [.noOp, .noOp, .scBlockRequest 7 1, .scBlockReceived 7 1, .noOp] := by
  decide

/-- In every state the scheduler reaches, `rTrySchedule` returns with a timeout, with nothing
to schedule, or with the lowest `New` height when no ready peer has it; otherwise it asks for
the lowest `New` height the ready peer whose range holds it and that has the fewest pending
requests, and marks the block pending from that peer: it never fails to mark the block. -/
theorem reachable_trySchedule {height : B → ℤ} (hr : Reachable height sc) (now time : Time) :
    ∃ sc' out, sc.handle height now (.rTrySchedule time) = .ok (sc', out) ∧
      sc.TryScheduled time sc' out :=
  hr.inv.handleTrySchedule_spec now time

/-- Peer 7 reports blocks 1 to 3 and block 1 is requested from it: the next `rTrySchedule`
asks it for block 2. -/
theorem reachable_trySchedule_readyPeer :
    ∃ r : Scheduler ℕ × List (ScEvent ℕ ℕ),
      Routine.start (handle (fun b : ℕ ↦ (b : ℤ))) (newScheduler 1 0)
        [(0, .bcResetState 0 1), (0, .bcStatusResponse 7 1 3), (0, .rTrySchedule 0)] = .ok r ∧
      ∃ sc' out, r.1.handle (fun b : ℕ ↦ (b : ℤ)) 0 (.rTrySchedule 0) = .ok (sc', out) ∧
        out = .scBlockRequest 7 2 ∧ r.1.TryScheduled 0 sc' out := by
  obtain ⟨r, hrun, hnext⟩ := Except.exists_eq_ok_of_toOption_map
    (show (Routine.start (handle (fun b : ℕ ↦ (b : ℤ))) (newScheduler 1 0 : Scheduler ℕ)
        [(0, .bcResetState 0 1), (0, .bcStatusResponse 7 1 3), (0, .rTrySchedule 0)]).toOption.map
        (fun r ↦ (r.1.handle (fun b : ℕ ↦ (b : ℤ)) 0 (.rTrySchedule 0)).toOption.map Prod.snd) =
      some (some (.scBlockRequest 7 2)) by decide)
  have hr := reachable_start_routine (fun te hte _ _ h ↦ by
    simp only [List.mem_cons, List.not_mem_nil, or_false] at hte
    rcases hte with rfl | rfl <;> cases h) hrun
  obtain ⟨sc', out, hs, hsched⟩ := reachable_trySchedule hr 0 0
  rw [hs] at hnext
  exact ⟨r, hrun, sc', out, hs, Option.some.inj hnext, hsched⟩

end Tenderdash.Blockchain.Scheduler
