import Tenderdash.Types.Basic
import Tenderdash.Lib.Protobuf
import Tenderdash.Lib.Except
import Mathlib.Data.List.Nodup

/-!
# Secret connections

`p2p/conn/secret_connection.go` after the handshake.  `Write` cuts its data
into chunks of at most `dataMaxSize` bytes, puts each behind its length in a
frame of `totalFrameSize` bytes, seals the frame under the send nonce and
writes the sealed frame.  `Read` serves what is left of the last frame
first; otherwise it reads one sealed frame, opens it under the receive nonce
and returns as much of its chunk as the caller's buffer holds, keeping the
rest.  Both nonces count frames, and `incrNonce` panics rather than wrap.

The AEAD is abstract: a sealed frame opens under the key and nonce it was
sealed with, and is `aeadSizeOverhead` bytes longer than the frame, which is
what `Write` relies on when it writes the whole `sealedFrame` buffer.  A nonce
is the 64-bit counter the code keeps little-endian in `nonce[4:]`; the first
four bytes stay zero.  Buffers from the pool are taken as zeros, since `Read`
never looks past the chunk.  The connection underneath is lossless and never
closed, so a `Read` that finds no whole sealed frame waits; the model returns
nothing then.

Two connections joined both ways form a `Duplex`, with what each side's
`Write` took and each side's `Read` returned kept beside it.  Over every run
from the handshake, what one side has read is a prefix of what the other
wrote, reads of positive sizes as many as the bytes still undelivered deliver
the rest, no nonce is sealed with twice, and a `Write` of one to `dataMaxSize` bytes emits one sealed frame
(`duplex_stream_transparent`).  A `Write` of no bytes emits none
(`write_empty_emits_no_frame`).
-/

namespace Tenderdash.P2P

open Protobuf (leBytes leValue leBytes_length)

/-- `dataLenSize`. -/
def dataLenSize : ℕ := 4

/-- `dataMaxSize`. -/
def dataMaxSize : ℕ := 1024

/-- `totalFrameSize`. -/
def totalFrameSize : ℕ := dataMaxSize + dataLenSize

/-- `aeadSizeOverhead`, the Poly1305 tag. -/
def aeadSizeOverhead : ℕ := 16

/-- The size of the `sealedFrame` buffers. -/
def sealedFrameSize : ℕ := aeadSizeOverhead + totalFrameSize

/-- `cipher.AEAD` over keys of type `K`: `Seal` and `Open` (the lower-case names are keywords). -/
structure Aead (K : Type) where
  Seal : K → UInt64 → Bytes → Bytes
  Open : K → UInt64 → Bytes → Option Bytes

/-- What the connection needs of its AEAD. -/
structure Aead.Correct {K : Type} (aead : Aead K) : Prop where
  open_seal : ∀ k n p, aead.Open k n (aead.Seal k n p) = some p
  length_seal : ∀ k n p, (aead.Seal k n p).length = p.length + aeadSizeOverhead

/-- `SecretConnection`: the keys of `recvAead` and `sendAead`, the rest of the
last frame read, and both nonces.  `sealed` lists the nonces `Seal` was called
with, which the code does not keep. -/
structure SecretConnection (K : Type) where
  recvKey : K
  sendKey : K
  recvBuffer : Bytes
  recvNonce : UInt64
  sendNonce : UInt64
  sealed : List UInt64

variable {K : Type}

/-- The state `MakeSecretConnection` returns. -/
def SecretConnection.new (recvKey sendKey : K) : SecretConnection K :=
  ⟨recvKey, sendKey, [], 0, 0, []⟩

/-- `incrNonce`. -/
def incrNonce (counter : UInt64) : Except String UInt64 :=
  if counter = 18446744073709551615 then throw "can't increase nonce without overflow"
  else pure (counter + 1)

/-- The frame `Write` seals for a chunk. -/
def frameOf (chunk : Bytes) : Bytes :=
  leBytes dataLenSize chunk.length ++ chunk ++ List.replicate (dataMaxSize - chunk.length) 0

/-- The chunk `Write` takes next, and the data left after it. -/
def splitChunk (data : Bytes) : Bytes × Bytes :=
  if dataMaxSize < data.length then (data.take dataMaxSize, data.drop dataMaxSize) else (data, [])

/-- The loop of `Write` for at most `fuel` rounds: each round seals one frame
and writes it after `out`, and `n` counts the bytes written. -/
def writeLoop (aead : Aead K) :
    ℕ → SecretConnection K → Bytes → ℕ → Bytes → Except String (SecretConnection K × Bytes × ℕ)
  | 0, sc, out, n, _ => pure (sc, out, n)
  | fuel + 1, sc, out, n, data =>
    if 0 < data.length then
      let chunk := (splitChunk data).1
      let sealedFrame := aead.Seal sc.sendKey sc.sendNonce (frameOf chunk)
      let sc := { sc with sealed := sc.sealed ++ [sc.sendNonce] }
      incrNonce sc.sendNonce >>= fun nonce ↦
        writeLoop aead fuel { sc with sendNonce := nonce } (out ++ sealedFrame) (n + chunk.length)
          (splitChunk data).2
    else pure (sc, out, n)

namespace SecretConnection

/-- `Write`, which takes at least one byte a round: the connection after it,
the underlying connection's bytes after `out`, and `n`. -/
def write (aead : Aead K) (sc : SecretConnection K) (out data : Bytes) :
    Except String (SecretConnection K × Bytes × ℕ) :=
  writeLoop aead data.length sc out 0 data

/-- `Read` into a buffer of `size` bytes, from the bytes `inc` the peer wrote
and this side has not read: the connection after it, what is left of `inc`,
and the bytes read. -/
def read (aead : Aead K) (sc : SecretConnection K) (inc : Bytes) (size : ℕ) :
    Except String (SecretConnection K × Bytes × Bytes) :=
  if 0 < sc.recvBuffer.length then
    pure ({ sc with recvBuffer := sc.recvBuffer.drop size }, inc, sc.recvBuffer.take size)
  else if inc.length < sealedFrameSize then pure (sc, inc, [])
  else
    match aead.Open sc.recvKey sc.recvNonce (inc.take sealedFrameSize) with
    | none => throw "failed to decrypt SecretConnection: chacha20poly1305: message authentication failed"
    | some frame =>
      incrNonce sc.recvNonce >>= fun nonce ↦
        let chunkLength := leValue (frame.take dataLenSize)
        if dataMaxSize < chunkLength then throw "chunkLength is greater than dataMaxSize"
        else
          let chunk := (frame.drop dataLenSize).take chunkLength
          let n := min size chunk.length
          pure ({ sc with recvNonce := nonce,
                          recvBuffer := if n < chunk.length then chunk.drop n else sc.recvBuffer },
                inc.drop sealedFrameSize, chunk.take n)

end SecretConnection

/-- The two ends of a duplex. -/
inductive Side where
  | a
  | b
deriving DecidableEq, Repr

/-- The other end. -/
def Side.other : Side → Side
  | .a => .b
  | .b => .a

/-- A call on one end: `Write(data)`, or `Read` into a buffer of `size` bytes. -/
inductive Call where
  | write (side : Side) (data : Bytes)
  | read (side : Side) (size : ℕ)
deriving DecidableEq, Repr

/-- Two secret connections over a lossless ordered connection: each side's
state, the bytes it wrote that the other has not read, what its `Write` calls
took and what its `Read` calls returned. -/
structure Duplex (K : Type) where
  conn : Side → SecretConnection K
  wire : Side → Bytes
  written : Side → Bytes
  delivered : Side → Bytes

namespace Duplex

/-- Both ends after the handshake, `a` sending with `ka` and `b` with `kb`. -/
def new (ka kb : K) : Duplex K :=
  ⟨fun | .a => .new kb ka | .b => .new ka kb, fun _ ↦ [], fun _ ↦ [], fun _ ↦ []⟩

/-- One call; the caller stops the connection on an error. -/
def step (aead : Aead K) (d : Duplex K) : Call → Except String (Duplex K)
  | .write s data =>
    ((d.conn s).write aead (d.wire s) data).map fun r ↦
      { d with conn := Function.update d.conn s r.1, wire := Function.update d.wire s r.2.1,
               written := Function.update d.written s (d.written s ++ data) }
  | .read s size =>
    ((d.conn s).read aead (d.wire s.other) size).map fun r ↦
      { d with conn := Function.update d.conn s r.1, wire := Function.update d.wire s.other r.2.1,
               delivered := Function.update d.delivered s (d.delivered s ++ r.2.2) }

/-- A run of calls. -/
def run (aead : Aead K) : Duplex K → List Call → Except String (Duplex K)
  | d, [] => pure d
  | d, ev :: evs => d.step aead ev >>= fun d ↦ d.run aead evs

end Duplex

/-! ## Frames and nonces -/

/-- What `Write` puts in a frame: one to `dataMaxSize` bytes. -/
def Chunk (c : Bytes) : Prop := 0 < c.length ∧ c.length ≤ dataMaxSize

/-- The sealed frames of `chunks`, under nonces counting up from `n`. -/
def sealAll (aead : Aead K) (k : K) : ℕ → List Bytes → Bytes
  | _, [] => []
  | n, c :: cs => aead.Seal k (UInt64.ofNat n) (frameOf c) ++ sealAll aead k (n + 1) cs

theorem length_frameOf {c : Bytes} (hc : c.length ≤ dataMaxSize) :
    (frameOf c).length = totalFrameSize := by
  simp only [frameOf, List.length_append, leBytes_length, List.length_replicate, totalFrameSize]
  omega

theorem chunkLength_frameOf {c : Bytes} (hc : c.length ≤ dataMaxSize) :
    leValue ((frameOf c).take dataLenSize) = c.length := by
  rw [frameOf, List.append_assoc, List.take_left' (leBytes_length _ _), Protobuf.leValue_leBytes]
  exact Nat.mod_eq_of_lt (lt_of_le_of_lt hc (by decide))

theorem chunk_frameOf (c : Bytes) : ((frameOf c).drop dataLenSize).take c.length = c := by
  rw [frameOf, List.append_assoc, List.drop_left' (leBytes_length _ _), List.take_left' rfl]

theorem sealAll_append (aead : Aead K) (k : K) (cs ds : List Bytes) :
    ∀ n, sealAll aead k n (cs ++ ds) = sealAll aead k n cs ++ sealAll aead k (n + cs.length) ds := by
  induction cs with
  | nil => intro n; rfl
  | cons c cs ih =>
    intro n
    rw [List.cons_append, sealAll, sealAll, ih, List.append_assoc, List.length_cons, Nat.add_assoc,
      Nat.add_comm 1]

section Correct

variable {aead : Aead K} (haead : aead.Correct)
include haead

theorem length_seal_frameOf (k : K) (n : UInt64) {c : Bytes} (hc : c.length ≤ dataMaxSize) :
    (aead.Seal k n (frameOf c)).length = sealedFrameSize := by
  rw [haead.length_seal, length_frameOf hc, sealedFrameSize, Nat.add_comm]

theorem length_sealAll (k : K) : ∀ (n : ℕ) {cs : List Bytes}, (∀ c ∈ cs, Chunk c) →
    (sealAll aead k n cs).length = sealedFrameSize * cs.length
  | _, [], _ => rfl
  | n, c :: cs, hcs => by
    have hc : Chunk c := hcs c List.mem_cons_self
    rw [sealAll, List.length_append, length_seal_frameOf haead _ _ hc.2,
      length_sealAll k (n + 1) (fun c' hc' ↦ hcs c' (List.mem_cons_of_mem c hc')), List.length_cons]
    ring

theorem take_sealAll_cons (k : K) (n : ℕ) {c : Bytes} (hc : c.length ≤ dataMaxSize)
    (cs : List Bytes) :
    (sealAll aead k n (c :: cs)).take sealedFrameSize = aead.Seal k (UInt64.ofNat n) (frameOf c) := by
  rw [sealAll, List.take_left' (length_seal_frameOf haead _ _ hc)]

theorem drop_sealAll_cons (k : K) (n : ℕ) {c : Bytes} (hc : c.length ≤ dataMaxSize)
    (cs : List Bytes) :
    (sealAll aead k n (c :: cs)).drop sealedFrameSize = sealAll aead k (n + 1) cs := by
  rw [sealAll, List.drop_left' (length_seal_frameOf haead _ _ hc)]

end Correct

theorem nonce_toNat_add_one {counter : UInt64} (h : counter.toNat + 1 < 2 ^ 64) :
    (counter + 1).toNat = counter.toNat + 1 := by
  rw [UInt64.toNat_add, UInt64.toNat_one, Nat.mod_eq_of_lt h]

theorem incrNonce_of_lt {counter : UInt64} (h : counter.toNat + 1 < 2 ^ 64) :
    incrNonce counter = .ok (counter + 1) := by
  have hne : counter ≠ 18446744073709551615 := by
    rintro rfl
    exact absurd h (by decide)
  rw [incrNonce, if_neg hne]
  rfl

theorem incrNonce_eq_ok {counter nonce : UInt64} (h : incrNonce counter = .ok nonce) :
    counter.toNat + 1 < 2 ^ 64 ∧ nonce.toNat = counter.toNat + 1 := by
  unfold incrNonce at h
  split_ifs at h with hmax
  cases h
  have hlt : counter.toNat + 1 < 2 ^ 64 := by
    have hne : counter.toNat ≠ 18446744073709551615 := fun heq ↦ hmax (UInt64.toNat_inj.mp heq)
    have := counter.toNat_lt
    omega
  exact ⟨hlt, nonce_toNat_add_one hlt⟩

/-! ## `Write` -/

/-- The next chunk is a chunk, it and the rest make up the data, and it is
either the last or full. -/
theorem splitChunk_spec {data : Bytes} (h : 0 < data.length) :
    Chunk (splitChunk data).1 ∧ (splitChunk data).1 ++ (splitChunk data).2 = data ∧
      ((splitChunk data).2 = [] ∨ (splitChunk data).1.length = dataMaxSize) := by
  unfold splitChunk Chunk
  split_ifs with hlt
  · have htake : (data.take dataMaxSize).length = dataMaxSize := List.length_take_of_le hlt.le
    refine ⟨⟨?_, ?_⟩, List.take_append_drop _ _, .inr htake⟩ <;> rw [htake]
    decide
  · exact ⟨⟨h, Nat.le_of_not_lt hlt⟩, List.append_nil _, .inl rfl⟩

/-- A chunk that is the last or full takes one frame of `⌈len / dataMaxSize⌉`. -/
theorem frameCount_append {chunk rest : Bytes} (hc : Chunk chunk)
    (hlast : rest = [] ∨ chunk.length = dataMaxSize) :
    (rest.length + dataMaxSize - 1) / dataMaxSize + 1 =
      ((chunk ++ rest).length + dataMaxSize - 1) / dataMaxSize := by
  obtain ⟨hpos, hle⟩ := hc
  rw [List.length_append]
  simp only [dataMaxSize] at hle hlast ⊢
  rcases hlast with rfl | hfull
  · rw [List.length_nil]
    omega
  · omega

variable {aead : Aead K}

/-- `Write` changes only the send nonce and the nonces sealed with. -/
theorem writeLoop_frame : ∀ {fuel : ℕ} {sc sc' : SecretConnection K} {out out' data : Bytes}
    {n n' : ℕ}, writeLoop aead fuel sc out n data = .ok (sc', out', n') →
    ∃ nonce sealed, sc' = { sc with sendNonce := nonce, sealed := sealed }
  | 0, sc, _, _, _, _, _, _, h => by
    cases h
    exact ⟨sc.sendNonce, sc.sealed, rfl⟩
  | fuel + 1, sc, _, _, _, data, _, _, h => by
    rw [writeLoop] at h
    split_ifs at h with hpos
    · obtain ⟨nonce, -, h⟩ := Except.bind_eq_ok.mp h
      obtain ⟨nonce', sealed', rfl⟩ := writeLoop_frame h
      exact ⟨nonce', sealed', rfl⟩
    · cases h
      exact ⟨sc.sendNonce, sc.sealed, rfl⟩

/-- No nonce sealed with so far comes back: they are distinct and below the
send nonce. -/
structure Fresh (sc : SecretConnection K) : Prop where
  nodup : sc.sealed.Nodup
  lt : ∀ x ∈ sc.sealed, x.toNat < sc.sendNonce.toNat

theorem fresh_new (recvKey sendKey : K) : Fresh (SecretConnection.new recvKey sendKey) :=
  ⟨List.nodup_nil, by simp [SecretConnection.new]⟩

/-- Sealing with the send nonce and then counting it up keeps the nonces fresh. -/
theorem Fresh.sealNext {sc : SecretConnection K} (hf : Fresh sc) {nonce : UInt64}
    (hnonce : nonce.toNat = sc.sendNonce.toNat + 1) :
    Fresh { sc with sealed := sc.sealed ++ [sc.sendNonce], sendNonce := nonce } := by
  constructor
  · have hnotin : sc.sendNonce ∉ sc.sealed := fun hin ↦ lt_irrefl _ (hf.lt _ hin)
    refine List.nodup_append.mpr ⟨hf.nodup, List.nodup_singleton _, fun x hx y hy heq ↦ ?_⟩
    rw [List.mem_singleton.mp hy] at heq
    exact hnotin (heq ▸ hx)
  · intro x hx
    rcases List.mem_append.mp hx with hold | hnew
    · have := hf.lt x hold
      dsimp only
      omega
    · rw [List.mem_singleton.mp hnew]
      dsimp only
      omega

theorem Fresh.writeLoop : ∀ {fuel : ℕ} {sc sc' : SecretConnection K} {out out' data : Bytes}
    {n n' : ℕ}, Fresh sc → P2P.writeLoop aead fuel sc out n data = .ok (sc', out', n') → Fresh sc'
  | 0, _, _, _, _, _, _, _, hf, h => by
    cases h
    exact hf
  | fuel + 1, _, _, _, _, _, _, _, hf, h => by
    rw [P2P.writeLoop] at h
    split_ifs at h with hpos
    · obtain ⟨nonce, hnonce, h⟩ := Except.bind_eq_ok.mp h
      exact Fresh.writeLoop (hf.sealNext (incrNonce_eq_ok hnonce).2) h
    · cases h
      exact hf

/-- `Write` of data that fits the fuel: the data cut into chunks, one sealed
frame per chunk under nonces counting up from the send nonce, so that
`⌈len(data) / dataMaxSize⌉` frames go out. -/
theorem writeLoop_eq_ok : ∀ {fuel : ℕ} {sc sc' : SecretConnection K} {out out' data : Bytes}
    {n n' : ℕ}, data.length ≤ fuel → writeLoop aead fuel sc out n data = .ok (sc', out', n') →
    ∃ chunks : List Bytes, (∀ c ∈ chunks, Chunk c) ∧ chunks.flatten = data ∧
      chunks.length = (data.length + dataMaxSize - 1) / dataMaxSize ∧
      out' = out ++ sealAll aead sc.sendKey sc.sendNonce.toNat chunks ∧
      sc'.sendNonce.toNat = sc.sendNonce.toNat + chunks.length ∧ n' = n + data.length
  | 0, sc, _, _, out, data, n, _, hfuel, h => by
    obtain rfl : data = [] := List.eq_nil_of_length_eq_zero (by omega)
    cases h
    exact ⟨[], by simp, rfl, rfl, by simp [sealAll], rfl, rfl⟩
  | fuel + 1, sc, _, _, out, data, n, _, hfuel, h => by
    rw [writeLoop] at h
    split_ifs at h with hpos
    · obtain ⟨hchunk, happend, hlast⟩ := splitChunk_spec hpos
      have hsplit : (splitChunk data).1.length + (splitChunk data).2.length = data.length := by
        simpa using congrArg List.length happend
      obtain ⟨nonce, hnonce, h⟩ := Except.bind_eq_ok.mp h
      obtain ⟨-, hnonce⟩ := incrNonce_eq_ok hnonce
      obtain ⟨chunks, hchunks, hflat, hlen, hout, hsend, hn⟩ :=
        writeLoop_eq_ok (by have := hchunk.1; omega) h
      dsimp only at hnonce hout hsend
      refine ⟨(splitChunk data).1 :: chunks, ?_, ?_, ?_, ?_, ?_, ?_⟩
      · rintro c (_ | ⟨_, hc⟩)
        exacts [hchunk, hchunks c hc]
      · rw [List.flatten_cons, hflat, happend]
      · rw [List.length_cons, hlen, frameCount_append hchunk hlast, happend]
      · rw [hout, sealAll, UInt64.ofNat_toNat, List.append_assoc, hnonce]
      · rw [hsend, List.length_cons, hnonce]
        omega
      · rw [hn]
        omega
    · obtain rfl : data = [] := List.eq_nil_of_length_eq_zero (by omega)
      cases h
      exact ⟨[], by simp, rfl, rfl, by simp [sealAll], rfl, rfl⟩

/-! ## `Read` -/

/-- `Read` changes only the receive nonce and buffer. -/
theorem read_frame {sc sc' : SecretConnection K} {inc inc' bytes : Bytes} {size : ℕ}
    (h : sc.read aead inc size = .ok (sc', inc', bytes)) :
    ∃ nonce buffer, sc' = { sc with recvNonce := nonce, recvBuffer := buffer } := by
  unfold SecretConnection.read at h
  split_ifs at h with hbuf hshort
  · cases h
    exact ⟨_, _, rfl⟩
  · cases h
    exact ⟨sc.recvNonce, sc.recvBuffer, rfl⟩
  · split at h
    · cases h
    · obtain ⟨nonce, -, h⟩ := Except.bind_eq_ok.mp h
      dsimp only at h
      split at h
      · cases h
      · cases h
        exact ⟨_, _, rfl⟩

/-- The stream from `A` to `B`: the wire holds the sealed frames of the chunks
`B` has not opened, under the nonces from `B`'s receive nonce up to `A`'s send
nonce, and what was written is what `B` read, then what it keeps buffered,
then those chunks. -/
structure Pending (aead : Aead K) (A B : SecretConnection K) (wire written delivered : Bytes)
    (chunks : List Bytes) : Prop where
  chunk : ∀ c ∈ chunks, Chunk c
  wire_eq : wire = sealAll aead A.sendKey B.recvNonce.toNat chunks
  nonce_eq : B.recvNonce.toNat + chunks.length = A.sendNonce.toNat
  written_eq : written = delivered ++ B.recvBuffer ++ chunks.flatten

theorem Pending.congr_send {A B : SecretConnection K} {wire written delivered : Bytes}
    {chunks : List Bytes} (hp : Pending aead A B wire written delivered chunks)
    {A' : SecretConnection K} (hkey : A'.sendKey = A.sendKey) (hnonce : A'.sendNonce = A.sendNonce) :
    Pending aead A' B wire written delivered chunks :=
  ⟨hp.chunk, hkey ▸ hp.wire_eq, hnonce ▸ hp.nonce_eq, hp.written_eq⟩

theorem Pending.congr_recv {A B : SecretConnection K} {wire written delivered : Bytes}
    {chunks : List Bytes} (hp : Pending aead A B wire written delivered chunks)
    {B' : SecretConnection K} (hnonce : B'.recvNonce = B.recvNonce)
    (hbuf : B'.recvBuffer = B.recvBuffer) :
    Pending aead A B' wire written delivered chunks :=
  ⟨hp.chunk, hnonce ▸ hp.wire_eq, hnonce ▸ hp.nonce_eq, hbuf ▸ hp.written_eq⟩

/-- A `Write` extends the stream by the chunks of its data. -/
theorem Pending.write {A B : SecretConnection K} {wire written delivered : Bytes}
    {chunks : List Bytes} (hp : Pending aead A B wire written delivered chunks)
    {data out : Bytes} {A' : SecretConnection K} {n : ℕ}
    (h : A.write aead wire data = .ok (A', out, n)) :
    A'.sendKey = A.sendKey ∧ ∃ chunks', Pending aead A' B out (written ++ data) delivered chunks' := by
  obtain ⟨nonce, sealed, hA'⟩ := writeLoop_frame h
  obtain ⟨new, hnew, hflat, -, hout, hsend, -⟩ := writeLoop_eq_ok le_rfl h
  have hkey : A'.sendKey = A.sendKey := by rw [hA']
  refine ⟨hkey, chunks ++ new, ⟨?_, ?_, ?_, ?_⟩⟩
  · intro c hc
    rcases List.mem_append.mp hc with hold | hnew'
    exacts [hp.chunk c hold, hnew c hnew']
  · rw [hout, hp.wire_eq, sealAll_append, hp.nonce_eq, hkey]
  · rw [List.length_append, hsend, ← hp.nonce_eq, Nat.add_assoc]
  · rw [hp.written_eq, List.flatten_append, hflat, List.append_assoc]

theorem drop_min_eq (c : Bytes) (size : ℕ) :
    (if min size c.length < c.length then c.drop (min size c.length) else []) =
      c.drop (min size c.length) := by
  split_ifs with h
  · rfl
  · exact (List.drop_eq_nil_of_le (by omega)).symm

section Correct

variable (haead : aead.Correct)
include haead

/-- `Read` on a pending stream takes one of its three branches: from the
buffer, nothing when no frame is there, or the next chunk. -/
theorem Pending.read_cases {A B : SecretConnection K} {wire written delivered : Bytes}
    {chunks : List Bytes} (hkey : B.recvKey = A.sendKey)
    (hp : Pending aead A B wire written delivered chunks) (size : ℕ) :
    (0 < B.recvBuffer.length ∧ B.read aead wire size =
      .ok ({ B with recvBuffer := B.recvBuffer.drop size }, wire, B.recvBuffer.take size)) ∨
    (B.recvBuffer = [] ∧ chunks = [] ∧ B.read aead wire size = .ok (B, wire, [])) ∨
    ∃ c cs, B.recvBuffer = [] ∧ chunks = c :: cs ∧ B.read aead wire size =
      .ok ({ B with recvNonce := B.recvNonce + 1, recvBuffer := c.drop (min size c.length) },
        sealAll aead A.sendKey (B.recvNonce.toNat + 1) cs, c.take (min size c.length)) := by
  by_cases hbuf : 0 < B.recvBuffer.length
  · exact .inl ⟨hbuf, by rw [SecretConnection.read, if_pos hbuf]; rfl⟩
  have hnil : B.recvBuffer = [] := List.eq_nil_of_length_eq_zero (by omega)
  right
  cases chunks with
  | nil =>
    have hshort : wire.length < sealedFrameSize := by
      rw [hp.wire_eq, sealAll, List.length_nil]
      decide
    exact .inl ⟨hnil, rfl, by rw [SecretConnection.read, if_neg hbuf, if_pos hshort]; rfl⟩
  | cons c cs =>
    have hc := hp.chunk c List.mem_cons_self
    have hlong : ¬ wire.length < sealedFrameSize := by
      rw [hp.wire_eq, length_sealAll haead _ _ hp.chunk, List.length_cons, Nat.mul_succ]
      omega
    have hopen : aead.Open B.recvKey B.recvNonce (wire.take sealedFrameSize) = some (frameOf c) := by
      rw [hp.wire_eq, take_sealAll_cons haead _ _ hc.2, UInt64.ofNat_toNat, hkey, haead.open_seal]
    have hincr : incrNonce B.recvNonce = .ok (B.recvNonce + 1) := by
      have hlt := A.sendNonce.toNat_lt
      have heq := hp.nonce_eq
      rw [List.length_cons] at heq
      exact incrNonce_of_lt (by omega)
    have hdrop : wire.drop sealedFrameSize = sealAll aead A.sendKey (B.recvNonce.toNat + 1) cs := by
      rw [hp.wire_eq, drop_sealAll_cons haead _ _ hc.2]
    refine .inr ⟨c, cs, hnil, rfl, ?_⟩
    rw [SecretConnection.read, if_neg hbuf, if_neg hlong, hopen]
    dsimp only
    rw [hincr, Except.ok_bind, chunkLength_frameOf hc.2, if_neg (not_lt.mpr hc.2), chunk_frameOf, hnil,
      drop_min_eq, hdrop]
    rfl

/-- `Read` keeps the stream pending, with what it returned read. -/
theorem Pending.read {A B : SecretConnection K} {wire written delivered : Bytes}
    {chunks : List Bytes} (hkey : B.recvKey = A.sendKey)
    (hp : Pending aead A B wire written delivered chunks) {size : ℕ} {B' : SecretConnection K}
    {wire' bytes : Bytes} (h : B.read aead wire size = .ok (B', wire', bytes)) :
    ∃ chunks', Pending aead A B' wire' written (delivered ++ bytes) chunks' := by
  rcases hp.read_cases haead hkey size with ⟨-, hread⟩ | ⟨-, -, hread⟩ | ⟨c, cs, hnil, rfl, hread⟩
  · rw [hread] at h
    cases h
    refine ⟨chunks, ⟨hp.chunk, hp.wire_eq, hp.nonce_eq, ?_⟩⟩
    rw [hp.written_eq]
    dsimp only
    simp only [List.append_assoc]
    rw [← List.append_assoc (List.take _ _), List.take_append_drop]
  · rw [hread] at h
    cases h
    exact ⟨chunks, by simpa using hp⟩
  · rw [hread] at h
    cases h
    have hlt := A.sendNonce.toNat_lt
    have heq := hp.nonce_eq
    rw [List.length_cons] at heq
    have hnonce : (B.recvNonce + 1).toNat = B.recvNonce.toNat + 1 :=
      nonce_toNat_add_one (by omega)
    refine ⟨cs, ⟨fun c' hc' ↦ hp.chunk c' (List.mem_cons_of_mem c hc'), ?_, ?_, ?_⟩⟩
    · dsimp only
      rw [hnonce]
    · dsimp only
      omega
    · rw [hp.written_eq, hnil, List.flatten_cons]
      dsimp only
      simp only [List.append_nil, List.append_assoc]
      rw [← List.append_assoc (List.take _ _), List.take_append_drop]

/-- A `Read` of some bytes returns at least one, unless everything written was
read. -/
theorem Pending.read_progress {A B : SecretConnection K} {wire written delivered : Bytes}
    {chunks : List Bytes} (hkey : B.recvKey = A.sendKey)
    (hp : Pending aead A B wire written delivered chunks) {size : ℕ} (hsize : 0 < size) :
    ∃ r, B.read aead wire size = .ok r ∧ (r.2.2 ≠ [] ∨ written = delivered) := by
  rcases hp.read_cases haead hkey size with ⟨hbuf, hread⟩ | ⟨hnil, rfl, hread⟩ |
    ⟨c, cs, -, rfl, hread⟩
  · refine ⟨_, hread, .inl ?_⟩
    dsimp only
    rw [Ne, List.take_eq_nil_iff, not_or]
    exact ⟨by omega, List.ne_nil_of_length_pos hbuf⟩
  · refine ⟨_, hread, .inr ?_⟩
    rw [hp.written_eq, hnil]
    simp
  · refine ⟨_, hread, .inl ?_⟩
    have hc := (hp.chunk c List.mem_cons_self).1
    dsimp only
    rw [Ne, List.take_eq_nil_iff, not_or]
    exact ⟨by omega, List.ne_nil_of_length_pos hc⟩

end Correct

/-- A `Write` of no bytes writes nothing. -/
theorem write_nil {sc sc' : SecretConnection K} {out out' : Bytes} {n : ℕ}
    (h : sc.write aead out [] = .ok (sc', out', n)) : out' = out := by
  cases h
  rfl

/-- A `Write` of one to `dataMaxSize` bytes writes one sealed frame. -/
theorem write_one_frame {sc sc' : SecretConnection K} {out out' data : Bytes} {n : ℕ}
    (hpos : 0 < data.length) (hle : data.length ≤ dataMaxSize)
    (h : sc.write aead out data = .ok (sc', out', n)) :
    out' = out ++ aead.Seal sc.sendKey sc.sendNonce (frameOf data) := by
  obtain ⟨chunks, -, hflat, hcount, hout, -⟩ := writeLoop_eq_ok le_rfl h
  have hone : chunks.length = 1 := by
    rw [hcount]
    simp only [dataMaxSize] at hle ⊢
    omega
  obtain ⟨c, rfl⟩ := List.length_eq_one_iff.mp hone
  rw [List.flatten_singleton] at hflat
  rw [hout, hflat, sealAll, sealAll, UInt64.ofNat_toNat, List.append_nil]

/-! ## Two connections -/

theorem Side.other_ne : ∀ s : Side, s.other ≠ s
  | .a => nofun
  | .b => nofun

@[simp] theorem Side.other_other : ∀ s : Side, s.other.other = s
  | .a => rfl
  | .b => rfl

theorem Side.eq_or_eq_other : ∀ s t : Side, t = s ∨ t = s.other
  | .a, .a => .inl rfl
  | .a, .b => .inr rfl
  | .b, .a => .inr rfl
  | .b, .b => .inl rfl

/-- `B` opens with `A`'s send key, and the stream from `A` to `B` is pending. -/
def Flow (aead : Aead K) (A B : SecretConnection K) (wire written delivered : Bytes) : Prop :=
  B.recvKey = A.sendKey ∧ ∃ chunks, Pending aead A B wire written delivered chunks

namespace Duplex

/-- The stream from side `s` to the other. -/
def Flow (aead : Aead K) (d : Duplex K) (s : Side) : Prop :=
  P2P.Flow aead (d.conn s) (d.conn s.other) (d.wire s) (d.written s) (d.delivered s.other)

/-- Both streams flow, and both sides seal under fresh nonces. -/
structure Inv (aead : Aead K) (d : Duplex K) : Prop where
  flow : ∀ s, d.Flow aead s
  fresh : ∀ s, Fresh (d.conn s)

theorem inv_new (ka kb : K) : (Duplex.new ka kb).Inv aead := by
  constructor
  · intro s
    refine ⟨?_, [], ⟨by simp, ?_, ?_, ?_⟩⟩ <;> cases s <;> rfl
  · intro s
    cases s <;> exact fresh_new _ _

theorem Inv.delivered_isPrefix {d : Duplex K} (hinv : d.Inv aead) (s : Side) :
    d.delivered s.other <+: d.written s := by
  obtain ⟨-, chunks, hp⟩ := hinv.flow s
  exact ⟨_, by rw [hp.written_eq, List.append_assoc]⟩

theorem step_write_eq_ok {d d' : Duplex K} {s : Side} {data : Bytes}
    (h : d.step aead (.write s data) = .ok d') :
    ∃ A' out n, (d.conn s).write aead (d.wire s) data = .ok (A', out, n) ∧
      d' = { d with conn := Function.update d.conn s A', wire := Function.update d.wire s out,
                    written := Function.update d.written s (d.written s ++ data) } := by
  obtain ⟨⟨A', out, n⟩, hw, rfl⟩ := Except.map_eq_ok.mp h
  exact ⟨A', out, n, hw, rfl⟩

theorem step_read_eq_ok {d d' : Duplex K} {s : Side} {size : ℕ}
    (h : d.step aead (.read s size) = .ok d') :
    ∃ B' inc bytes, (d.conn s).read aead (d.wire s.other) size = .ok (B', inc, bytes) ∧
      d' = { d with conn := Function.update d.conn s B', wire := Function.update d.wire s.other inc,
                    delivered := Function.update d.delivered s (d.delivered s ++ bytes) } := by
  obtain ⟨⟨B', inc, bytes⟩, hr, rfl⟩ := Except.map_eq_ok.mp h
  exact ⟨B', inc, bytes, hr, rfl⟩

/-- A `Write` on `s` extends the stream from `s`; the stream towards `s` only
sees the send half of `s` change. -/
theorem Inv.write {d d' : Duplex K} (hinv : d.Inv aead) {s : Side} {data : Bytes}
    (h : d.step aead (.write s data) = .ok d') : d'.Inv aead := by
  obtain ⟨A', out, n, hw, rfl⟩ := step_write_eq_ok h
  obtain ⟨nonce, sealed, hA'⟩ := writeLoop_frame hw
  have hne := Side.other_ne s
  constructor
  · intro t
    obtain ⟨hkey, chunks, hp⟩ := hinv.flow t
    unfold Duplex.Flow P2P.Flow
    rcases Side.eq_or_eq_other s t with rfl | rfl
    · obtain ⟨hkey', chunks', hp'⟩ := hp.write hw
      simp only [Function.update_self, Function.update_of_ne hne]
      exact ⟨hkey.trans hkey'.symm, chunks', hp'⟩
    · simp only [Side.other_other, Function.update_self, Function.update_of_ne hne] at hkey hp ⊢
      refine ⟨by rw [hA', hkey], chunks, hp.congr_recv (by rw [hA']) (by rw [hA'])⟩
  · intro t
    rcases Side.eq_or_eq_other s t with rfl | rfl
    · dsimp only
      rw [Function.update_self]
      exact (hinv.fresh t).writeLoop hw
    · dsimp only
      rw [Function.update_of_ne hne]
      exact hinv.fresh _

/-- A `Read` on `s` takes from the stream towards `s`; the stream from `s`
only sees the receive half of `s` change. -/
theorem Inv.read (haead : aead.Correct) {d d' : Duplex K} (hinv : d.Inv aead) {s : Side}
    {size : ℕ} (h : d.step aead (.read s size) = .ok d') : d'.Inv aead := by
  obtain ⟨B', inc, bytes, hr, rfl⟩ := step_read_eq_ok h
  obtain ⟨nonce, buffer, hB'⟩ := read_frame hr
  have hne := Side.other_ne s
  constructor
  · intro t
    obtain ⟨hkey, chunks, hp⟩ := hinv.flow t
    unfold Duplex.Flow P2P.Flow
    rcases Side.eq_or_eq_other s t with rfl | rfl
    · simp only [Function.update_self, Function.update_of_ne hne, Function.update_of_ne hne.symm]
      exact ⟨by rw [hB', hkey], chunks, hp.congr_send (by rw [hB']) (by rw [hB'])⟩
    · simp only [Side.other_other, Function.update_self, Function.update_of_ne hne] at hkey hp ⊢
      obtain ⟨chunks', hp'⟩ := hp.read haead hkey hr
      exact ⟨by rw [hB', hkey], chunks', hp'⟩
  · intro t
    rcases Side.eq_or_eq_other s t with rfl | rfl
    · dsimp only
      rw [Function.update_self, hB']
      exact ⟨(hinv.fresh t).nodup, (hinv.fresh t).lt⟩
    · dsimp only
      rw [Function.update_of_ne hne]
      exact hinv.fresh _

theorem Inv.step (haead : aead.Correct) {d d' : Duplex K} (hinv : d.Inv aead) :
    ∀ {ev : Call}, d.step aead ev = .ok d' → d'.Inv aead
  | .write _ _, h => hinv.write h
  | .read _ _, h => hinv.read haead h

theorem Inv.run (haead : aead.Correct) :
    ∀ {evs : List Call} {d d' : Duplex K}, d.Inv aead → d.run aead evs = .ok d' → d'.Inv aead
  | [], _, _, hinv, h => by
    cases h
    exact hinv
  | _ :: _, _, _, hinv, h => by
    obtain ⟨d₁, h₁, h₂⟩ := Except.bind_eq_ok.mp h
    exact Inv.run haead (hinv.step haead h₁) h₂

/-- Reads of positive sizes on the other side of `s`, at least as many as the
bytes still on their way, deliver everything `s` wrote: each such read returns
a byte until none is left. -/
theorem Inv.reads_deliver (haead : aead.Correct) {s : Side} :
    ∀ (sizes : List ℕ) {d : Duplex K}, d.Inv aead →
      (d.written s).length ≤ (d.delivered s.other).length + sizes.length →
      (∀ size ∈ sizes, 0 < size) →
      ∃ d', d.run aead (sizes.map (.read s.other)) = .ok d' ∧ d'.delivered s.other = d'.written s
  | [], d, hinv, hlen, _ => by
    have hpre := hinv.delivered_isPrefix s
    exact ⟨d, rfl, hpre.eq_of_length (le_antisymm hpre.length_le (by simpa using hlen))⟩
  | size :: sizes, d, hinv, hlen, hpos => by
    obtain ⟨hkey, chunks, hp⟩ := hinv.flow s
    obtain ⟨⟨B', inc, bytes⟩, hread, hprog⟩ :=
      hp.read_progress haead hkey (hpos size List.mem_cons_self)
    have hne := Side.other_ne s
    let d₁ : Duplex K :=
      { d with conn := Function.update d.conn s.other B', wire := Function.update d.wire s inc,
               delivered := Function.update d.delivered s.other (d.delivered s.other ++ bytes) }
    have hstep : d.step aead (.read s.other size) = .ok d₁ := by
      simp only [Duplex.step, Side.other_other, hread]
      rfl
    have hwritten : d₁.written s = d.written s := rfl
    have hdelivered : d₁.delivered s.other = d.delivered s.other ++ bytes := by
      simp only [d₁, Function.update_self]
    have hbound : (d₁.written s).length ≤ (d₁.delivered s.other).length + sizes.length := by
      rw [hwritten, hdelivered, List.length_append]
      rw [List.length_cons] at hlen
      rcases hprog with hbytes | heq
      · have := List.length_pos_of_ne_nil (show bytes ≠ [] from hbytes)
        omega
      · rw [heq]
        omega
    obtain ⟨d', hrun, hdone⟩ := Inv.reads_deliver haead sizes (hinv.read haead hstep) hbound
      (fun x hx ↦ hpos x (List.mem_cons_of_mem _ hx))
    refine ⟨d', ?_, hdone⟩
    rw [List.map_cons, Duplex.run, hstep, Except.ok_bind]
    exact hrun

end Duplex

/-- Two secret connections over a lossless ordered connection are a transparent
byte stream each way.  Over every run from the handshake: what the other side
has read is a prefix of what `s` wrote; reads of any positive sizes, at least as
many as the bytes still undelivered, deliver all of it; `s` never seals twice under one nonce; and a `Write` on `s`
emits no frame for no bytes and one sealed frame, under the send nonce, for one
to `dataMaxSize` bytes. -/
theorem duplex_stream_transparent {aead : Aead K} (haead : aead.Correct) (ka kb : K)
    {evs : List Call} {d : Duplex K} (h : (Duplex.new ka kb).run aead evs = .ok d) (s : Side) :
    d.delivered s.other <+: d.written s ∧
    (∀ sizes : List ℕ, (d.written s).length ≤ (d.delivered s.other).length + sizes.length →
      (∀ size ∈ sizes, 0 < size) →
      ∃ d', d.run aead (sizes.map (.read s.other)) = .ok d' ∧ d'.delivered s.other = d'.written s) ∧
    (d.conn s).sealed.Nodup ∧
    (∀ d', d.step aead (.write s []) = .ok d' → d'.wire s = d.wire s) ∧
    ∀ (data : Bytes) (d' : Duplex K), 0 < data.length → data.length ≤ dataMaxSize →
      d.step aead (.write s data) = .ok d' →
      d'.wire s = d.wire s ++ aead.Seal (d.conn s).sendKey (d.conn s).sendNonce (frameOf data) := by
  have hinv := Duplex.inv_new ka kb |>.run haead h
  refine ⟨hinv.delivered_isPrefix s,
    fun sizes hbound hpos ↦ hinv.reads_deliver haead sizes hbound hpos, (hinv.fresh s).nodup, ?_, ?_⟩
  · intro d' hstep
    obtain ⟨A', out, n, hw, rfl⟩ := Duplex.step_write_eq_ok hstep
    dsimp only
    rw [Function.update_self, write_nil hw]
  · intro data d' hpos hle hstep
    obtain ⟨A', out, n, hw, rfl⟩ := Duplex.step_write_eq_ok hstep
    dsimp only
    rw [Function.update_self, write_one_frame hpos hle hw]

/-- An AEAD that appends a zero tag and opens by dropping it. -/
def plainAead : Aead Unit :=
  ⟨fun _ _ p ↦ p ++ List.replicate aeadSizeOverhead 0,
    fun _ _ c ↦ some (c.take (c.length - aeadSizeOverhead))⟩

theorem plainAead_correct : plainAead.Correct := by
  constructor
  · intro k n p
    simp [plainAead]
  · intro k n p
    simp [plainAead]

/-- A `Write` of no bytes, which is at most `dataMaxSize`, seals nothing and
writes nothing. -/
theorem write_empty_emits_no_frame :
    ∃ d', (Duplex.new () ()).step plainAead (.write .a []) = .ok d' ∧ d'.wire .a = [] ∧
      (d'.conn .a).sealed = [] :=
  ⟨_, rfl, rfl, rfl⟩

set_option maxRecDepth 8000 in
/-- Three bytes written on `a`: a read of two on `b` returns the first two. -/
theorem duplex_plain_three_bytes :
    ∃ d, (Duplex.new () ()).run plainAead [.write .a [1, 2, 3], .read .b 2] = .ok d ∧
      d.delivered .b = [1, 2] ∧ d.delivered Side.a.other <+: d.written .a := by
  obtain ⟨d, h, hdelivered⟩ : ∃ d, (Duplex.new () ()).run plainAead
      [.write .a [1, 2, 3], .read .b 2] = .ok d ∧ d.delivered .b = [1, 2] := ⟨_, rfl, rfl⟩
  exact ⟨d, h, hdelivered, (duplex_stream_transparent plainAead_correct () () h .a).1⟩

end Tenderdash.P2P
