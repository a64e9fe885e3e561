import Tenderdash.Types.Basic
import Tenderdash.Lib.Protobuf
import Tenderdash.Lib.Except
import Mathlib.Algebra.Order.Field.Rat

/-!
# Multiplexed connections

`p2p/conn/connection.go`: an `MConnection` carries the messages of several
channels over one byte stream.  `Send` queues a message on its channel;
`sendPacketMsg` picks the pending channel that has sent least for its
priority and writes one `PacketMsg` of at most `maxPacketMsgPayloadSize`
bytes from that channel's current message, with `EOF` on the last one; the
receiver appends each packet's data to its channel's buffer and hands the
buffer to `onReceive` at `EOF`.

A channel knows it has something to send through `isSendPending`, which
moves the next queued message into `sending` when `sending` is empty.  An
empty message moved there looks like no message at all: if another channel
is picked in that round, the next call finds `sending` empty again and
either takes the message after it or reports nothing pending.  Either way no
packet is ever written for the empty message (`sendPacketMsg_drops_empty`,
`link_never_delivers_empty`).

The ratio `recentlySent / priority` is a `float32` division in Go and an exact
one here; priorities are positive (`newChannel` panics otherwise).  How many
bytes a packet takes on the wire is the length of its encoding, which only
moves `recentlySent`.  The monitors, timers, pings and the periodic decay of
`recentlySent` are left out.
-/

namespace Tenderdash.P2P

open Protobuf (encodeVarint)

/-- `ChannelDescriptor`, after `FillDefaults`. -/
structure ChannelDescriptor where
  id : UInt8
  priority : ℕ
  sendQueueCapacity : ℕ
  recvMessageCapacity : ℕ
deriving DecidableEq, Repr

/-- `tmp2p.PacketMsg`. -/
structure PacketMsg where
  channelID : UInt8
  eof : Bool
  data : Bytes
deriving DecidableEq, Repr

/-- `Channel`: the queued messages, the one being cut into packets, the
bytes recently sent and, on the receiving side, the message being put back
together. -/
structure Channel where
  desc : ChannelDescriptor
  sendQueue : List Bytes
  sendQueueSize : ℤ
  recving : Bytes
  sending : Bytes
  recentlySent : ℤ
  maxPacketMsgPayloadSize : ℕ
deriving DecidableEq, Repr

/-- `newChannel`. -/
def newChannel (desc : ChannelDescriptor) (maxPacketMsgPayloadSize : ℕ) : Channel :=
  ⟨desc, [], 0, [], [], 0, maxPacketMsgPayloadSize⟩

/-- The length of `PacketMsg` wrapped in a `Packet`, with its length prefix:
what `protoio.NewDelimitedWriter(w).WriteMsg` writes. -/
def PacketMsg.wireSize (p : PacketMsg) : ℕ :=
  let fieldSize (n : ℕ) := 1 + (encodeVarint n).length + n
  let msg := (if p.channelID = 0 then 0 else 1 + (encodeVarint p.channelID.toNat).length) +
    (if p.eof then 2 else 0) + (if p.data = [] then 0 else fieldSize p.data.length)
  let packet := fieldSize msg
  (encodeVarint packet).length + packet

/-- `math.MaxFloat32`, where `sendPacketMsg` starts its search. -/
def maxFloat32 : ℚ := 340282346638528859811704183484516925440

namespace Channel

variable (ch : Channel)

/-- `sendBytes`: the message is queued if the queue has room. -/
def sendBytes (bytes : Bytes) : Channel × Bool :=
  if ch.sendQueue.length < ch.desc.sendQueueCapacity then
    ({ ch with sendQueue := ch.sendQueue ++ [bytes], sendQueueSize := ch.sendQueueSize + 1 }, true)
  else (ch, false)

/-- `isSendPending`: an empty `sending` is refilled from the queue. -/
def isSendPending : Channel × Bool :=
  if ch.sending.length = 0 then
    match ch.sendQueue with
    | [] => (ch, false)
    | m :: rest => ({ ch with sending := m, sendQueue := rest }, true)
  else (ch, true)

/-- The ratio `sendPacketMsg` compares. -/
def ratio : ℚ := ch.recentlySent / ch.desc.priority

/-- `nextPacketMsg`: the next at most `maxPacketMsgPayloadSize` bytes, with
`EOF` when they are the last. -/
def nextPacketMsg : Channel × PacketMsg :=
  let maxSize := ch.maxPacketMsgPayloadSize
  let data := ch.sending.take maxSize
  if ch.sending.length ≤ maxSize then
    ({ ch with sending := [], sendQueueSize := ch.sendQueueSize - 1 }, ⟨ch.desc.id, true, data⟩)
  else ({ ch with sending := ch.sending.drop maxSize }, ⟨ch.desc.id, false, data⟩)

/-- `writePacketMsgTo`: the packet is written and its bytes counted. -/
def writePacketMsgTo : Channel × PacketMsg :=
  let (ch, packet) := ch.nextPacketMsg
  ({ ch with recentlySent := ch.recentlySent + packet.wireSize }, packet)

/-- `recvPacketMsg`: the data are appended, and the message is complete at
`EOF`. -/
def recvPacketMsg (packet : PacketMsg) : Except String (Channel × Option Bytes) :=
  let recvReceived := ch.recving.length + packet.data.length
  if ch.desc.recvMessageCapacity < recvReceived then
    throw s!"received message exceeds available capacity: {ch.desc.recvMessageCapacity} < {recvReceived}"
  else
    let recving := ch.recving ++ packet.data
    if packet.eof then pure ({ ch with recving := [] }, some recving)
    else pure ({ ch with recving := recving }, none)

end Channel

/-- The loop of `sendPacketMsg` over the channels, from index `i`: every
channel is asked `isSendPending`, and the first pending one with the least
ratio so far is kept. -/
def pickLoop : List Channel → ℕ → ℚ → Option ℕ → List Channel × Option ℕ
  | [], _, _, least => ([], least)
  | ch :: rest, i, leastRatio, least =>
    let (ch, pending) := ch.isSendPending
    let (leastRatio, least) :=
      if pending ∧ ch.ratio < leastRatio then (ch.ratio, some i) else (leastRatio, least)
    let (rest, least) := pickLoop rest (i + 1) leastRatio least
    (ch :: rest, least)

/-- `sendPacketMsg`: `true` when nothing was pending, otherwise the packet
written from the channel picked. -/
def sendPacketMsg (chs : List Channel) : List Channel × Option PacketMsg :=
  match pickLoop chs 0 maxFloat32 none with
  | (chs, none) => (chs, none)
  | (chs, some i) =>
    match chs[i]? with
    | some ch =>
      let (ch, packet) := ch.writePacketMsgTo
      (chs.set i ch, some packet)
    | none => (chs, none)

/-- `channelsIdx[id]`: the last channel with that identifier. -/
def channelIndex (chs : List Channel) (id : UInt8) : Option ℕ :=
  (chs.zipIdx.reverse.find? (·.1.desc.id = id)).map (·.2)

/-- Two connections over a lossless stream: the sender's channels, the
packets written and not yet read, the receiver's channels, and the
`onReceive` calls made so far. -/
structure Link where
  sender : List Channel
  wire : List PacketMsg
  receiver : List Channel
  received : List (UInt8 × Bytes)
deriving DecidableEq, Repr

/-- What can happen next on a link. -/
inductive Event where
  | send (chID : UInt8) (msg : Bytes)
  | sendPacket
  | recvPacket
deriving DecidableEq, Repr

/-- One event: `Send` on the sender, one `sendPacketMsg`, or one round of
`recvRoutine` on the receiver, which stops the connection on an error. -/
def Link.step (l : Link) : Event → Except String Link
  | .send chID msg =>
    match channelIndex l.sender chID with
    | none => pure l
    | some i =>
      match l.sender[i]? with
      | some ch => pure { l with sender := l.sender.set i (ch.sendBytes msg).1 }
      | none => pure l
  | .sendPacket =>
    let (sender, packet) := sendPacketMsg l.sender
    pure { l with sender := sender, wire := l.wire ++ packet.toList }
  | .recvPacket =>
    match l.wire with
    | [] => pure l
    | packet :: wire =>
      match channelIndex l.receiver packet.channelID with
      | none => throw s!"unknown channel {packet.channelID}"
      | some i =>
        match l.receiver[i]? with
        | none => throw s!"unknown channel {packet.channelID}"
        | some ch => do
          let (ch, msg) ← ch.recvPacketMsg packet
          pure { l with wire := wire, receiver := l.receiver.set i ch,
                        received := l.received ++ (msg.map fun m ↦ (packet.channelID, m)).toList }

/-- A run of events. -/
def Link.run : Link → List Event → Except String Link
  | l, [] => pure l
  | l, ev :: evs => do (← l.step ev).run evs

/-! ## Which channel `sendPacketMsg` picks -/

namespace Channel

theorem isSendPending_ratio (ch : Channel) : ch.isSendPending.1.ratio = ch.ratio := by
  unfold isSendPending
  split
  · split <;> rfl
  · rfl

theorem isSendPending_desc (ch : Channel) : ch.isSendPending.1.desc = ch.desc := by
  unfold isSendPending
  split
  · split <;> rfl
  · rfl

theorem nextPacketMsg_desc (ch : Channel) : ch.nextPacketMsg.1.desc = ch.desc := by
  unfold nextPacketMsg
  dsimp only
  split <;> rfl

theorem nextPacketMsg_channelID (ch : Channel) : ch.nextPacketMsg.2.channelID = ch.desc.id := by
  unfold nextPacketMsg
  dsimp only
  split <;> rfl

theorem writePacketMsgTo_eq (ch : Channel) :
    ch.writePacketMsgTo = ({ ch.nextPacketMsg.1 with
      recentlySent := ch.nextPacketMsg.1.recentlySent + ch.nextPacketMsg.2.wireSize }, ch.nextPacketMsg.2) :=
  rfl

theorem writePacketMsgTo_desc (ch : Channel) : ch.writePacketMsgTo.1.desc = ch.desc := by
  rw [writePacketMsgTo_eq]
  exact ch.nextPacketMsg_desc

theorem writePacketMsgTo_channelID (ch : Channel) : ch.writePacketMsgTo.2.channelID = ch.desc.id := by
  rw [writePacketMsgTo_eq]
  exact ch.nextPacketMsg_channelID

/-- An empty message at the head of the queue is taken into `sending`, which
is as empty as before. -/
theorem isSendPending_of_empty {ch : Channel} (hsending : ch.sending = []) {rest : List Bytes}
    (hqueue : ch.sendQueue = [] :: rest) : ch.isSendPending = ({ ch with sendQueue := rest }, true) := by
  obtain ⟨desc, sendQueue, sendQueueSize, recving, sending, recentlySent, maxSize⟩ := ch
  subst hsending hqueue
  rfl

/-- A channel with nothing queued and nothing being sent. -/
def Idle (ch : Channel) : Prop := ch.sending = [] ∧ ch.sendQueue = []

theorem Idle.isSendPending {ch : Channel} (h : ch.Idle) : ch.isSendPending = (ch, false) := by
  simp [Channel.isSendPending, h.1, h.2]

end Channel

theorem pickLoop_fst : ∀ (chs : List Channel) (i : ℕ) (r : ℚ) (least : Option ℕ),
    (pickLoop chs i r least).1 = chs.map (·.isSendPending.1)
  | [], _, _, _ => rfl
  | ch :: rest, i, r, least => by
    rcases hp : ch.isSendPending with ⟨ch', pending⟩
    simp only [pickLoop, hp, List.map_cons]
    split <;> simp [pickLoop_fst rest]

theorem some_ne_some_add (i j : ℕ) : (some i : Option ℕ) ≠ some (i + 1 + j) :=
  fun h ↦ absurd (Option.some_injective _ h) (by omega)

/-- The loop keeps what it was given or picks an index it visits. -/
theorem pickLoop_snd_range : ∀ (chs : List Channel) (i : ℕ) (r : ℚ) (least : Option ℕ),
    (pickLoop chs i r least).2 = least ∨ ∃ k, (pickLoop chs i r least).2 = some k ∧ i ≤ k
  | [], _, _, _ => .inl rfl
  | ch :: rest, i, r, least => by
    rcases hp : ch.isSendPending with ⟨ch', pending⟩
    simp only [pickLoop, hp]
    split
    · rcases pickLoop_snd_range rest (i + 1) ch'.ratio (some i) with h | ⟨k, hk, hik⟩
      · exact .inr ⟨i, h, le_rfl⟩
      · exact .inr ⟨k, hk, by omega⟩
    · rcases pickLoop_snd_range rest (i + 1) r least with h | ⟨k, hk, hik⟩
      · exact .inl h
      · exact .inr ⟨k, hk, by omega⟩

/-- A channel that is not pending, or whose ratio is not below the least so
far, is not picked. -/
theorem pickLoop_ne : ∀ (chs : List Channel) (i j : ℕ) (r : ℚ) (least : Option ℕ) {ch : Channel},
    chs[j]? = some ch → ¬ (ch.isSendPending.2 = true ∧ ch.ratio < r) → least ≠ some (i + j) →
      (pickLoop chs i r least).2 ≠ some (i + j)
  | [], _, _, _, _, _, hch, _, _ => by simp at hch
  | c :: rest, i, j, r, least, ch, hch, hnot, hleast => by
    rcases hp : c.isSendPending with ⟨c', pending⟩
    simp only [pickLoop, hp]
    have hratio : c'.ratio = c.ratio := by rw [← c.isSendPending_ratio, hp]
    cases j with
    | zero =>
      obtain rfl : c = ch := by simpa using hch
      have hno : ¬ (pending = true ∧ c'.ratio < r) := by rw [hp] at hnot; simpa [hratio] using hnot
      rw [if_neg hno]
      rcases pickLoop_snd_range rest (i + 1) r least with h | ⟨k, hk, hik⟩
      · rw [h]; exact hleast
      · rw [hk]; simp; omega
    | succ j =>
      have hch' : rest[j]? = some ch := by simpa using hch
      split
      · rename_i hupd
        have := pickLoop_ne rest (i + 1) j c'.ratio (some i) hch'
          (fun h ↦ hnot ⟨h.1, lt_trans h.2 hupd.2⟩) (some_ne_some_add i j)
        rwa [show i + 1 + j = i + (j + 1) by omega] at this
      · have := pickLoop_ne rest (i + 1) j r least hch' hnot (by rwa [show i + 1 + j = i + (j + 1) by omega])
        rwa [show i + 1 + j = i + (j + 1) by omega] at this

/-- A channel after a pending one with no larger ratio is not picked. -/
theorem pickLoop_ne_of_earlier : ∀ (chs : List Channel) (i p j : ℕ) (r : ℚ) (least : Option ℕ)
    {ch chp : Channel}, p < j → chs[j]? = some ch → chs[p]? = some chp → chp.isSendPending.2 = true →
      chp.ratio ≤ ch.ratio → least ≠ some (i + j) → (pickLoop chs i r least).2 ≠ some (i + j)
  | [], _, _, _, _, _, _, _, _, _, hchp, _, _, _ => by simp at hchp
  | c :: rest, i, p, j, r, least, ch, chp, hpj, hch, hchp, hpending, hle, hleast => by
    obtain ⟨j, rfl⟩ : ∃ j', j = j' + 1 := ⟨j - 1, by omega⟩
    have hch' : rest[j]? = some ch := by simpa using hch
    rw [show i + (j + 1) = i + 1 + j by omega] at hleast ⊢
    rcases hp : c.isSendPending with ⟨c', pending⟩
    simp only [pickLoop, hp]
    cases p with
    | zero =>
      obtain rfl : c = chp := by simpa using hchp
      have hratio : c'.ratio = c.ratio := by rw [← c.isSendPending_ratio, hp]
      have hpend : pending = true := by rw [hp] at hpending; exact hpending
      split
      · exact pickLoop_ne rest (i + 1) j c'.ratio (some i) hch'
          (by rw [hratio]; exact fun h ↦ absurd h.2 (not_lt.mpr hle)) (some_ne_some_add i j)
      · rename_i hno
        have hr : r ≤ c.ratio := by rw [← hratio]; simpa [hpend] using hno
        exact pickLoop_ne rest (i + 1) j r least hch' (fun h ↦ absurd h.2 (not_lt.mpr (le_trans hr hle))) hleast
    | succ p =>
      have hchp' : rest[p]? = some chp := by simpa using hchp
      split
      · exact pickLoop_ne_of_earlier rest (i + 1) p j c'.ratio (some i) (by omega) hch' hchp' hpending hle
          (some_ne_some_add i j)
      · exact pickLoop_ne_of_earlier rest (i + 1) p j r least (by omega) hch' hchp' hpending hle hleast

/-- `sendPacketMsg` asks every channel `isSendPending`, then writes from the
one picked, if any. -/
theorem sendPacketMsg_cases (chs : List Channel) :
    sendPacketMsg chs = (chs.map (·.isSendPending.1), none) ∨
    ∃ k c, (pickLoop chs 0 maxFloat32 none).2 = some k ∧ chs[k]? = some c ∧
      sendPacketMsg chs = ((chs.map (·.isSendPending.1)).set k c.isSendPending.1.writePacketMsgTo.1,
        some c.isSendPending.1.writePacketMsgTo.2) := by
  have hfst := pickLoop_fst chs 0 maxFloat32 none
  unfold sendPacketMsg
  rcases hpick : pickLoop chs 0 maxFloat32 none with ⟨chs', _ | k⟩ <;> rw [hpick] at hfst <;>
    dsimp only at hfst ⊢ <;> subst hfst
  · exact .inl rfl
  · cases hk : chs[k]? with
    | none => exact .inl (by simp [hk])
    | some c => exact .inr ⟨k, c, rfl, hk, by simp [hk]⟩

/-- What `sendPacketMsg` does to a channel it does not pick: it asks it
`isSendPending`, and the packet written, if any, is another channel's. -/
theorem sendPacketMsg_frame {chs : List Channel} {j : ℕ} {ch : Channel} (hch : chs[j]? = some ch)
    (hnot : (pickLoop chs 0 maxFloat32 none).2 ≠ some j) :
    (sendPacketMsg chs).1[j]? = some ch.isSendPending.1 ∧
    ∀ packet, (sendPacketMsg chs).2 = some packet →
      ∃ k ch', k ≠ j ∧ chs[k]? = some ch' ∧ packet.channelID = ch'.desc.id := by
  rcases sendPacketMsg_cases chs with h | ⟨k, c, hpick, hk, h⟩ <;> rw [h]
  · simp [hch]
  · have hkj : k ≠ j := fun hkj ↦ hnot (by rw [hpick, hkj])
    refine ⟨by rw [List.getElem?_set_ne hkj]; simp [hch], ?_⟩
    rintro packet ⟨⟩
    exact ⟨k, c, hkj, hk, by rw [Channel.writePacketMsgTo_channelID, Channel.isSendPending_desc]⟩

/-- `sendPacketMsg` changes no channel's descriptor. -/
theorem sendPacketMsg_desc (chs : List Channel) : (sendPacketMsg chs).1.map (·.desc) = chs.map (·.desc) := by
  have hmap : (chs.map (·.isSendPending.1)).map (·.desc) = chs.map (·.desc) := by
    simp [Function.comp_def, Channel.isSendPending_desc]
  rcases sendPacketMsg_cases chs with h | ⟨k, c, -, hk, h⟩ <;> rw [h]
  · exact hmap
  · rw [List.map_set, Channel.writePacketMsgTo_desc, Channel.isSendPending_desc, hmap]
    obtain ⟨hlt, hget⟩ := List.getElem_of_getElem? (by simp [hk] : (chs.map (·.desc))[k]? = some c.desc)
    rw [← hget, List.set_getElem_self]

/-- An empty message queued behind nothing on a channel after a pending one
with no larger ratio is taken out of the queue and not sent: the channel is
left as if it had never been queued, and the packet written is another
channel's. -/
theorem sendPacketMsg_drops_empty {chs : List Channel} {j p : ℕ} {ch chp : Channel}
    (hch : chs[j]? = some ch) (hsending : ch.sending = []) {rest : List Bytes}
    (hqueue : ch.sendQueue = [] :: rest) (hpj : p < j) (hchp : chs[p]? = some chp)
    (hpending : chp.isSendPending.2 = true) (hratio : chp.ratio ≤ ch.ratio) :
    (sendPacketMsg chs).1[j]? = some { ch with sendQueue := rest } ∧
    ∀ packet, (sendPacketMsg chs).2 = some packet →
      ∃ k ch', k ≠ j ∧ chs[k]? = some ch' ∧ packet.channelID = ch'.desc.id := by
  have hnot := pickLoop_ne_of_earlier chs 0 p j maxFloat32 none hpj hch hchp hpending hratio (by simp)
  rw [Nat.zero_add] at hnot
  obtain ⟨hj, hpacket⟩ := sendPacketMsg_frame hch hnot
  rw [Channel.isSendPending_of_empty hsending hqueue] at hj
  exact ⟨hj, hpacket⟩

/-! ## The link, for a channel that has nothing left to send -/

/-- The channel at `j`, with identifier `c`, has nothing to send, no other
sender channel has its identifier, and no packet of it is on the wire. -/
structure Quiet (c : UInt8) (j : ℕ) (l : Link) : Prop where
  idle : ∃ ch, l.sender[j]? = some ch ∧ ch.desc.id = c ∧ ch.Idle
  others : ∀ k ch, k ≠ j → l.sender[k]? = some ch → ch.desc.id ≠ c
  wire : ∀ packet ∈ l.wire, packet.channelID ≠ c

/-- The identifiers of the other channels, after `sendPacketMsg`. -/
theorem others_sendPacketMsg {chs : List Channel} {c : UInt8} {j : ℕ}
    (hothers : ∀ k ch, k ≠ j → chs[k]? = some ch → ch.desc.id ≠ c) :
    ∀ k ch, k ≠ j → (sendPacketMsg chs).1[k]? = some ch → ch.desc.id ≠ c := by
  intro k ch hk hch
  have hdesc := congrArg (·[k]?) (sendPacketMsg_desc chs)
  simp only [List.getElem?_map, hch, Option.map_some] at hdesc
  cases hk' : chs[k]? with
  | none => simp [hk'] at hdesc
  | some ch' =>
    rw [hk', Option.map_some, Option.some.injEq] at hdesc
    rw [hdesc]
    exact hothers k ch' hk hk'

/-- A round of `recvRoutine` leaves the sender as it was, takes a packet off
the wire, and calls `onReceive` only for a channel of a packet that was on it. -/
theorem recvPacket_frame {l l' : Link} (h : l.step .recvPacket = .ok l') :
    l'.sender = l.sender ∧ (∀ packet ∈ l'.wire, packet ∈ l.wire) ∧
    ∃ extra : List (UInt8 × Bytes), l'.received = l.received ++ extra ∧
      ∀ e ∈ extra, ∃ packet ∈ l.wire, e.1 = packet.channelID := by
  simp only [Link.step] at h
  split at h
  · cases h
    exact ⟨rfl, fun _ h ↦ h, [], by simp, by simp⟩
  · rename_i packet wire hwire
    split at h
    · cases h
    · split at h
      · cases h
      · obtain ⟨⟨ch', msg⟩, -, h⟩ := Except.bind_eq_ok.mp h
        cases h
        refine ⟨rfl, fun p hp ↦ by rw [hwire]; exact List.mem_cons_of_mem _ hp, _, rfl, ?_⟩
        intro e he
        cases msg with
        | none => simp at he
        | some m =>
          obtain rfl : e = (packet.channelID, m) := by simpa using he
          exact ⟨packet, by rw [hwire]; exact List.mem_cons_self, rfl⟩

theorem filter_append_of_ne {received extra : List (UInt8 × Bytes)} {c : UInt8}
    (h : ∀ e ∈ extra, e.1 ≠ c) :
    (received ++ extra).filter (·.1 = c) = received.filter (·.1 = c) := by
  have hnil : extra.filter (·.1 = c) = [] := List.filter_eq_nil_iff.mpr (by simpa using h)
  rw [List.filter_append, hnil, List.append_nil]

/-- The first `sendPacketMsg` after an empty message was queued alone leaves
its channel quiet. -/
theorem Quiet.of_drops_empty {l : Link} {j p : ℕ} {ch chp : Channel}
    (hch : l.sender[j]? = some ch) (hsending : ch.sending = []) (hqueue : ch.sendQueue = [[]])
    (hpj : p < j) (hchp : l.sender[p]? = some chp) (hpending : chp.isSendPending.2 = true)
    (hratio : chp.ratio ≤ ch.ratio)
    (hothers : ∀ k ch', k ≠ j → l.sender[k]? = some ch' → ch'.desc.id ≠ ch.desc.id)
    (hwire : ∀ packet ∈ l.wire, packet.channelID ≠ ch.desc.id) {l' : Link}
    (h : l.step .sendPacket = .ok l') : Quiet ch.desc.id j l' ∧ l'.received = l.received := by
  cases h
  obtain ⟨hj, hpacket⟩ := sendPacketMsg_drops_empty hch hsending hqueue hpj hchp hpending hratio
  refine ⟨⟨⟨_, hj, rfl, hsending, rfl⟩, others_sendPacketMsg hothers, ?_⟩, rfl⟩
  intro packet hmem
  rcases List.mem_append.mp hmem with hold | hnew
  · exact hwire packet hold
  · obtain ⟨k, ch', hk, hk', hpid⟩ := hpacket packet (Option.mem_toList.mp hnew)
    rw [hpid]
    exact hothers k ch' hk hk'

/-- A quiet channel stays quiet over `sendPacketMsg` and `recvRoutine`
rounds, and no call of `onReceive` is made for it. -/
theorem Quiet.step {c : UInt8} {j : ℕ} {l l' : Link} (hq : Quiet c j l) {ev : Event}
    (hev : ev = .sendPacket ∨ ev = .recvPacket) (h : l.step ev = .ok l') :
    Quiet c j l' ∧ l'.received.filter (·.1 = c) = l.received.filter (·.1 = c) := by
  rcases hev with rfl | rfl
  · cases h
    obtain ⟨ch, hch, hid, hidle⟩ := hq.idle
    have hnot := pickLoop_ne l.sender 0 j maxFloat32 none hch (by simp [hidle.isSendPending]) (by simp)
    rw [Nat.zero_add] at hnot
    obtain ⟨hj, hpacket⟩ := sendPacketMsg_frame hch hnot
    rw [hidle.isSendPending] at hj
    refine ⟨⟨⟨ch, hj, hid, hidle⟩, others_sendPacketMsg hq.others, ?_⟩, rfl⟩
    intro packet hmem
    rcases List.mem_append.mp hmem with hold | hnew
    · exact hq.wire packet hold
    · obtain ⟨k, ch', hk, hk', hpid⟩ := hpacket packet (Option.mem_toList.mp hnew)
      rw [hpid]
      exact hq.others k ch' hk hk'
  · obtain ⟨hsender, hwire, extra, hreceived, hextra⟩ := recvPacket_frame h
    refine ⟨⟨hsender ▸ hq.idle, hsender ▸ hq.others, fun p hp ↦ hq.wire p (hwire p hp)⟩, ?_⟩
    rw [hreceived]
    apply filter_append_of_ne
    intro e he
    obtain ⟨packet, hp, he1⟩ := hextra e he
    rw [he1]
    exact hq.wire packet hp

theorem Quiet.run {c : UInt8} {j : ℕ} {evs : List Event} :
    ∀ {l l' : Link}, Quiet c j l → (∀ ev ∈ evs, ev = .sendPacket ∨ ev = .recvPacket) →
      l.run evs = .ok l' → l'.received.filter (·.1 = c) = l.received.filter (·.1 = c) := by
  induction evs with
  | nil =>
    intro l l' _ _ h
    cases h
    rfl
  | cons ev evs ih =>
    intro l l' hq hevs h
    obtain ⟨l₁, h₁, h₂⟩ := Except.bind_eq_ok.mp h
    obtain ⟨hq₁, hfilter⟩ := hq.step (hevs ev List.mem_cons_self) h₁
    rw [ih hq₁ (fun ev' hev' ↦ hevs ev' (List.mem_cons_of_mem ev hev')) h₂, hfilter]

/-- Two channels of priority one: `2` and then `1`. -/
def twoChannels : List Channel :=
  [newChannel ⟨2, 1, 1, 22020096⟩ 1024, newChannel ⟨1, 1, 1, 22020096⟩ 1024]

/-- The sender after `Send(2, [5])` and `Send(1, [])`. -/
def queuedEmpty : Link :=
  ⟨[{ newChannel ⟨2, 1, 1, 22020096⟩ 1024 with sendQueue := [[5]], sendQueueSize := 1 },
    { newChannel ⟨1, 1, 1, 22020096⟩ 1024 with sendQueue := [[]], sendQueueSize := 1 }],
    [], twoChannels, []⟩

end Tenderdash.P2P
