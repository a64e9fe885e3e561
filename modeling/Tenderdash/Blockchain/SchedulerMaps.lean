import Tenderdash.Blockchain.Scheduler

/-!
# What the scheduler's operations do to its maps

One lemma for each operation of `Scheduler.lean`, saying what it leaves in each map in
terms of the maps before it, so that the invariant of `SchedulerRun.lean` never unfolds an
operation.  The loops of `removePeer` over `pendingBlocks`, `receivedBlocks` and
`blockStates` write several maps in one body; they are first split into one loop of
`MapLoop` for each map.
-/

namespace Tenderdash.Blockchain.Scheduler

open MapLoop

variable {P : Type} [LinearOrder P]

/-! ## The loops of `removePeer` -/

theorem foldl_releasePending (peerID : P) : ∀ (l : List (Σ _ : ℤ, P)) (sc : Scheduler P),
    l.foldl (releasePending peerID) sc = { sc with
      blockStates := l.foldl (setIf (fun e ↦ e.2 = peerID) Sigma.fst .new) sc.blockStates
      pendingTime := l.foldl (eraseIf (fun e ↦ e.2 = peerID) Sigma.fst) sc.pendingTime
      pendingBlocks := l.foldl (eraseIf (fun e ↦ e.2 = peerID) Sigma.fst) sc.pendingBlocks }
  | [], _ => rfl
  | e :: l, sc => by
    rw [List.foldl_cons, foldl_releasePending peerID l]
    by_cases he : e.2 = peerID <;> simp [releasePending, setIf, eraseIf, setStateAtHeight, he]

theorem foldl_releaseReceived (peerID : P) : ∀ (l : List (Σ _ : ℤ, P)) (sc : Scheduler P),
    l.foldl (releaseReceived peerID) sc = { sc with
      blockStates := l.foldl (setIf (fun e ↦ e.2 = peerID) Sigma.fst .new) sc.blockStates
      receivedBlocks := l.foldl (eraseIf (fun e ↦ e.2 = peerID) Sigma.fst) sc.receivedBlocks }
  | [], _ => rfl
  | e :: l, sc => by
    rw [List.foldl_cons, foldl_releaseReceived peerID l]
    by_cases he : e.2 = peerID <;> simp [releaseReceived, setIf, eraseIf, setStateAtHeight, he]

omit [LinearOrder P] in
theorem foldl_pruneAbove (maxPeerHeight : ℤ) :
    ∀ (l : List (Σ _ : ℤ, BlockState)) (sc : Scheduler P),
      l.foldl (pruneAbove maxPeerHeight) sc = { sc with
        blockStates := l.foldl (eraseIf (fun e ↦ e.1 > maxPeerHeight) Sigma.fst) sc.blockStates }
  | [], _ => rfl
  | e :: l, sc => by
    rw [List.foldl_cons, foldl_pruneAbove maxPeerHeight l]
    by_cases he : e.1 > maxPeerHeight <;> simp [pruneAbove, eraseIf, he]

/-- `maxPeerHeight` is at least the height of every other ready peer. -/
theorem le_foldl_maxPeerHeightStep (peer : ScPeer P) {l : List (Σ _ : P, ScPeer P)}
    {e : Σ _ : P, ScPeer P} (he : e ∈ l) (hready : e.2.state = .ready)
    (hid : e.2.peerID ≠ peer.peerID) (m : ℤ) :
    e.2.height ≤ l.foldl (maxPeerHeightStep peer) m := by
  have hmono : ∀ m x, m ≤ maxPeerHeightStep peer m x := by
    intro m x
    unfold maxPeerHeightStep
    split_ifs <;> omega
  refine le_foldl_of_mem hmono (fun m ↦ ?_) he m
  rw [maxPeerHeightStep, if_neg (not_not_intro hready)]
  split_ifs with h
  · exact le_rfl
  · exact not_lt.mp (not_and.mp h hid)

/-- A loop over the entries of `m` that deletes the keys above `M`. -/
theorem lookup_foldl_eraseAbove {β : Type} (m : AList fun _ : ℤ ↦ β) (M h : ℤ) :
    (m.entries.foldl (eraseIf (fun e ↦ e.1 > M) Sigma.fst) m).lookup h =
      if M < h then none else m.lookup h := by
  rw [lookup_foldl_eraseIf, if_congr (exists_mem_entries_iff m (fun k _ ↦ k > M) h) rfl rfl]
  by_cases hM : M < h
  · rw [if_pos hM]
    cases hh : m.lookup h with
    | none => exact ite_self none
    | some b => exact if_pos ⟨b, rfl, hM⟩
  · rw [if_neg hM, if_neg fun ⟨_, _, h'⟩ ↦ hM h']

/-! ## `removePeer` -/

section RemovePeer

variable {sc : Scheduler P} {peerID : P}

theorem removePeer_of_lookup_none (hp : sc.peers.lookup peerID = none) :
    sc.removePeer peerID = sc := by
  rw [removePeer, hp]

theorem removePeer_of_removed {peer : ScPeer P} (hp : sc.peers.lookup peerID = some peer)
    (hs : peer.state = .removed) : sc.removePeer peerID = sc := by
  rw [removePeer, hp]
  exact if_pos hs

/-- What `removePeer` does to a peer it has not removed yet: the peer is `Removed`, its
pending and received blocks are `New` again, and every block above the highest other ready
peer is forgotten. -/
theorem removePeer_spec {peer : ScPeer P} (hp : sc.peers.lookup peerID = some peer)
    (hs : peer.state ≠ .removed) :
    ∃ maxPeerHeight : ℤ,
      (∀ q qpeer, sc.peers.lookup q = some qpeer → q ≠ peerID → qpeer.state = .ready →
        qpeer.peerID ≠ peer.peerID → qpeer.height ≤ maxPeerHeight) ∧
      (sc.removePeer peerID).peers = sc.peers.insert peerID { peer with state := .removed } ∧
      (sc.removePeer peerID).height = sc.height ∧
      (sc.removePeer peerID).targetPending = sc.targetPending ∧
      ∀ h,
        (sc.removePeer peerID).pendingBlocks.lookup h =
          (if sc.pendingBlocks.lookup h = some peerID then none else sc.pendingBlocks.lookup h) ∧
        (sc.removePeer peerID).pendingTime.lookup h =
          (if sc.pendingBlocks.lookup h = some peerID then none else sc.pendingTime.lookup h) ∧
        (sc.removePeer peerID).receivedBlocks.lookup h =
          (if sc.receivedBlocks.lookup h = some peerID then none
            else sc.receivedBlocks.lookup h) ∧
        (sc.removePeer peerID).blockStates.lookup h =
          if maxPeerHeight < h then none
          else if sc.receivedBlocks.lookup h = some peerID ∨
            sc.pendingBlocks.lookup h = some peerID then some .new
          else sc.blockStates.lookup h := by
  let peer' : ScPeer P := { peer with state := .removed }
  refine ⟨(sc.peers.insert peerID peer').entries.foldl (maxPeerHeightStep peer') 0, ?_, ?_⟩
  · intro q qpeer hq hne hready hid
    have hq' : (sc.peers.insert peerID peer').lookup q = some qpeer := by
      rw [AList.lookup_insert_ne hne]
      exact hq
    exact le_foldl_maxPeerHeightStep peer' (e := ⟨q, qpeer⟩) (AList.mem_lookup_iff.mp hq')
      hready hid 0
  rw [removePeer, hp]
  simp only [if_neg hs, foldl_releasePending, foldl_releaseReceived, foldl_pruneAbove, true_and]
  intro h
  refine ⟨?_, ?_, ?_, ?_⟩
  · simp [lookup_foldl_eraseIf_entries sc.pendingBlocks (· = peerID)]
  · simp [lookup_foldl_eraseIf_entries sc.pendingBlocks (· = peerID)]
  · simp [lookup_foldl_eraseIf_entries sc.receivedBlocks (· = peerID)]
  · rw [lookup_foldl_eraseAbove, lookup_foldl_setIf_entries sc.receivedBlocks (· = peerID),
      lookup_foldl_setIf_entries sc.pendingBlocks (· = peerID)]
    simp only [exists_eq_right]
    split_ifs <;> simp_all

end RemovePeer


/-! ## The other operations -/

section Operations

variable {sc sc' : Scheduler P} {peerID : P}

theorem ensurePeer_of_lookup_some {peer : ScPeer P} (hp : sc.peers.lookup peerID = some peer) :
    sc.ensurePeer peerID = (sc, peer) := by
  rw [ensurePeer, hp]

theorem ensurePeer_of_lookup_none (hp : sc.peers.lookup peerID = none) :
    sc.ensurePeer peerID =
      ({ sc with peers := sc.peers.insert peerID (newScPeer peerID) }, newScPeer peerID) := by
  rw [ensurePeer, hp]

/-- After `ensurePeer` the peer is in `peers`, as the record it returns. -/
theorem lookup_ensurePeer (sc : Scheduler P) (peerID : P) :
    (sc.ensurePeer peerID).1.peers.lookup peerID = some (sc.ensurePeer peerID).2 := by
  cases hp : sc.peers.lookup peerID with
  | none => simp [ensurePeer_of_lookup_none hp]
  | some peer => simp [ensurePeer_of_lookup_some hp, hp]

theorem touchPeer_eq_ok {time : Time} (h : sc.touchPeer peerID time = .ok sc') :
    ∃ peer, sc.peers.lookup peerID = some peer ∧ peer.state = .ready ∧
      sc' = { sc with peers := sc.peers.insert peerID { peer with lastTouched := time } } := by
  unfold touchPeer at h
  split at h
  · cases h
  · rename_i peer hp
    split at h
    · cases h
    · rename_i hready
      cases h
      exact ⟨peer, hp, not_not.mp hready, rfl⟩

omit [LinearOrder P] in
theorem getStateAtHeight_eq_of_le {h : ℤ} (hh : sc.height ≤ h) {state : BlockState}
    (hs : sc.blockStates.lookup h = some state) : sc.getStateAtHeight h = state := by
  rw [getStateAtHeight, if_neg (not_lt.mpr hh), hs]

omit [LinearOrder P] in
theorem lookup_of_getStateAtHeight {h : ℤ} {state : BlockState} (hne : state ≠ .processed)
    (hne' : state ≠ .unknown) (hs : sc.getStateAtHeight h = state) :
    sc.height ≤ h ∧ sc.blockStates.lookup h = some state := by
  unfold getStateAtHeight at hs
  split_ifs at hs with hh
  · exact absurd hs.symm hne
  · refine ⟨not_lt.mp hh, ?_⟩
    split at hs
    · rename_i hl
      rw [hl, hs]
    · exact absurd hs.symm hne'

omit [LinearOrder P] in
theorem getStateAtHeight_congr {sc₁ : Scheduler P} {h : ℤ} (hheight : sc₁.height = sc.height)
    (hl : sc₁.blockStates.lookup h = sc.blockStates.lookup h) :
    sc₁.getStateAtHeight h = sc.getStateAtHeight h := by
  simp only [getStateAtHeight, hheight, hl]

omit [LinearOrder P] in
/-- The loop of `addNewBlocks` from height `i` for `k` heights writes `New` only at heights
it visits whose state is `Unknown`, and changes nothing else. -/
theorem addNewBlocksLoop_spec : ∀ (k : ℕ) (sc : Scheduler P) (i : ℤ),
    ∃ bs, addNewBlocksLoop sc i k = { sc with blockStates := bs } ∧
      ∀ h, bs.lookup h = sc.blockStates.lookup h ∨
        sc.getStateAtHeight h = .unknown ∧ i ≤ h ∧ h < i + k ∧ bs.lookup h = some .new
  | 0, sc, _ => ⟨sc.blockStates, rfl, fun _ ↦ .inl rfl⟩
  | k + 1, sc, i => by
    by_cases hmax : i > sc.maxHeight
    · rw [addNewBlocksLoop, if_pos hmax]
      exact ⟨sc.blockStates, rfl, fun _ ↦ .inl rfl⟩
    let sc₁ := if sc.getStateAtHeight i = .unknown then sc.setStateAtHeight i .new else sc
    have hsc₁ : sc₁ = { sc with blockStates := sc₁.blockStates } := by
      simp only [sc₁]
      split_ifs <;> rfl
    have hlookup₁ : ∀ h, sc₁.blockStates.lookup h = sc.blockStates.lookup h ∨
        sc.getStateAtHeight h = .unknown ∧ h = i ∧ sc₁.blockStates.lookup h = some .new := by
      intro h
      simp only [sc₁]
      split_ifs with hu
      · by_cases hhi : h = i
        · subst hhi
          exact .inr ⟨hu, rfl, by simp [setStateAtHeight]⟩
        · exact .inl (by simp [setStateAtHeight, AList.lookup_insert_ne hhi])
      · exact .inl rfl
    obtain ⟨bs, hbs, hlookup⟩ := addNewBlocksLoop_spec k sc₁ (i + 1)
    refine ⟨bs, ?_, fun h ↦ ?_⟩
    · rw [addNewBlocksLoop, if_neg hmax]
      exact hbs.trans (by rw [hsc₁])
    rcases hlookup h with hl | ⟨hu, hih, hhk, hnew⟩ <;> rcases hlookup₁ h with hl₁ | hl₁
    · exact .inl (hl.trans hl₁)
    · exact .inr ⟨hl₁.1, by omega, by omega, hl.trans hl₁.2.2⟩
    · have hheight : sc₁.height = sc.height := by rw [hsc₁]
      rw [getStateAtHeight_congr hheight hl₁] at hu
      exact .inr ⟨hu, by omega, by omega, hnew⟩
    · omega

omit [LinearOrder P] in
/-- `addNewBlocks` writes `New` only at heights from `height` below `height + targetPending`
that hold no state, and changes nothing else. -/
theorem addNewBlocks_spec (sc : Scheduler P) :
    ∃ bs, sc.addNewBlocks = { sc with blockStates := bs } ∧
      ∀ h, bs.lookup h = sc.blockStates.lookup h ∨
        sc.getStateAtHeight h = .unknown ∧ sc.height ≤ h ∧
          h < sc.height + sc.targetPending ∧ bs.lookup h = some .new := by
  rw [addNewBlocks]
  split_ifs
  · exact ⟨sc.blockStates, rfl, fun _ ↦ .inl rfl⟩
  · exact addNewBlocksLoop_spec sc.targetPending sc sc.height

theorem markPending_eq_ok {time : Time} {h : ℤ} (hm : sc.markPending peerID h time = .ok sc') :
    sc.getStateAtHeight h = .new ∧ ∃ peer, sc.peers.lookup peerID = some peer ∧
      peer.state = .ready ∧ peer.base ≤ h ∧ h ≤ peer.height ∧
      sc' = { sc with
        blockStates := sc.blockStates.insert h .pending
        pendingBlocks := sc.pendingBlocks.insert h peerID
        pendingTime := sc.pendingTime.insert h time } := by
  unfold markPending at hm
  dsimp only at hm
  split_ifs at hm with hnew
  split at hm
  · cases hm
  · rename_i peer hp
    split_ifs at hm with hready habove hbelow
    cases hm
    exact ⟨not_not.mp hnew, peer, hp, not_not.mp hready, not_lt.mp hbelow, not_lt.mp habove,
      rfl⟩

/-- `markPending` succeeds on a `New` height inside the range of a ready peer. -/
theorem markPending_of_ready {time : Time} {h : ℤ} {peer : ScPeer P}
    (hnew : sc.getStateAtHeight h = .new) (hp : sc.peers.lookup peerID = some peer)
    (hready : peer.state = .ready) (hbase : peer.base ≤ h) (hheight : h ≤ peer.height) :
    sc.markPending peerID h time = .ok { sc with
      blockStates := sc.blockStates.insert h .pending
      pendingBlocks := sc.pendingBlocks.insert h peerID
      pendingTime := sc.pendingTime.insert h time } := by
  rw [markPending, if_neg (not_not_intro hnew)]
  simp only [hp, hready, ne_eq, not_true_eq_false, if_false, if_neg (not_lt.mpr hheight),
    if_neg (not_lt.mpr hbase)]
  rfl

end Operations

section MarkReceived

variable [Inhabited P] {sc sc' : Scheduler P} {peerID : P}

theorem markReceived_eq_ok {h size : ℤ} {now : Time}
    (hm : sc.markReceived peerID h size now = .ok sc') :
    sc.getStateAtHeight h = .pending ∧ (sc.pendingBlocks.lookup h).getD default = peerID ∧
      ∃ peer lastRate, sc.peers.lookup peerID = some peer ∧
      sc' = { sc with
        peers := sc.peers.insert peerID { peer with lastRate }
        blockStates := sc.blockStates.insert h .received
        pendingBlocks := sc.pendingBlocks.erase h
        pendingTime := sc.pendingTime.erase h
        receivedBlocks := sc.receivedBlocks.insert h peerID } := by
  unfold markReceived at hm
  dsimp only at hm
  split_ifs at hm with hreq
  push Not at hreq
  split at hm
  · cases hm
  · rename_i peer hp
    cases hm
    exact ⟨hreq.1, hreq.2, peer, _, hp, rfl⟩

/-- `markReceived` panics only on a peer that is not in `peers`. -/
theorem markReceived_ne_panic {h size : ℤ} {now : Time} (hp : sc.peers.lookup peerID ≠ none)
    (msg : String) : sc.markReceived peerID h size now ≠ .error (.panic msg) := by
  unfold markReceived
  dsimp only
  split_ifs
  · exact fun h ↦ by cases h
  · exact fun h ↦ by cases h
  · split
    · exact absurd ‹_› hp
    · exact fun h ↦ by cases h

end MarkReceived

/-! ## The height

`markProcessed` moves `height` to the next height; the other operations write other
fields. -/

section Height

variable {sc sc' : Scheduler P} {peerID : P}

@[simp] theorem height_removePeer (sc : Scheduler P) (peerID : P) :
    (sc.removePeer peerID).height = sc.height := by
  unfold removePeer
  split
  · rfl
  · split_ifs
    · rfl
    · simp only [foldl_releasePending, foldl_releaseReceived, foldl_pruneAbove]

@[simp] theorem height_foldl_removePeer (l : List P) (sc : Scheduler P) :
    (l.foldl removePeer sc).height = sc.height := by
  induction l generalizing sc with
  | nil => rfl
  | cons p l ih => rw [List.foldl_cons, ih, height_removePeer]

@[simp] theorem height_ensurePeer (sc : Scheduler P) (peerID : P) :
    (sc.ensurePeer peerID).1.height = sc.height := by
  unfold ensurePeer
  split <;> rfl

omit [LinearOrder P] in
@[simp] theorem height_addNewBlocks (sc : Scheduler P) : sc.addNewBlocks.height = sc.height := by
  obtain ⟨bs, h, -⟩ := addNewBlocks_spec sc
  rw [h]

@[simp] theorem height_setPeerRange (sc : Scheduler P) (peerID : P) (base height : ℤ) :
    (sc.setPeerRange peerID base height).1.height = sc.height := by
  rcases hE : sc.ensurePeer peerID with ⟨sc₁, peer⟩
  have h₁ : sc₁.height = sc.height := by rw [← height_ensurePeer sc peerID, hE]
  simp only [setPeerRange, hE]
  split_ifs <;> simp [h₁]

omit [LinearOrder P] in
@[simp] theorem height_markProcessed (sc : Scheduler P) (height : ℤ) (now : Time) :
    (sc.markProcessed height now).height = height + 1 := by
  simp only [markProcessed, height_addNewBlocks]

theorem height_touchPeer {time : Time} (h : sc.touchPeer peerID time = .ok sc') :
    sc'.height = sc.height := by
  obtain ⟨peer, -, -, rfl⟩ := touchPeer_eq_ok h
  rfl

theorem height_markPending {time : Time} {h : ℤ} (hm : sc.markPending peerID h time = .ok sc') :
    sc'.height = sc.height := by
  obtain ⟨-, peer, -, -, -, -, rfl⟩ := markPending_eq_ok hm
  rfl

variable [Inhabited P]

theorem height_markReceived {h size : ℤ} {now : Time}
    (hm : sc.markReceived peerID h size now = .ok sc') : sc'.height = sc.height := by
  obtain ⟨-, -, peer, lastRate, -, rfl⟩ := markReceived_eq_ok hm
  rfl

@[simp] theorem height_pruneHeightPeer (sc : Scheduler P) (now : Time) :
    (sc.pruneHeightPeer now).height = sc.height := by
  unfold pruneHeightPeer
  split
  · split_ifs
    · exact height_removePeer sc _
    · rfl
  · rfl

end Height

end Tenderdash.Blockchain.Scheduler
