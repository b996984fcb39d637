import Jpgsync.Pipeline
import Jpgsync.ExifHash.Text

/-!
# Update — the packets of announced hashes and the thread that reads them

The downloader packs each batch of new hashes into one update packet, back
to front; `update_receiver`, a thread started by the uploader, unpacks them
back to front and collects them in `received_hashes` until the uploader
sets `updated` (`peer.cpp`, *fill buf along the way* and
`update_receiver`).

Both loops move a pointer down to the start of their buffer and stop when
it is reached; a pointer that would pass the start, or an access outside
the buffer, is `none`. The first half of the module says what the loops
compute, the second half is the thread.
-/

namespace Jpgsync

/-! ## Filling a packet -/

/-- `memcpy(buf + off, digest, digest.length)`. -/
def writeAt (buf : Bytes) (off : Nat) (digest : Bytes) : Bytes :=
  buf.take off ++ digest ++ buf.drop (off + digest.length)

/-- `do { e->hash->ToDigest(bytes -= sizeof(ExifHash)); e = e->next; }
while (bytes != buf)`, with `bytes` as an offset into `buf`. -/
def fillUpdate : List Entry → Nat → Bytes → Option Bytes
  | [], _, _ => none
  | e :: rest, bytes, buf =>
    if sizeofExifHash ≤ bytes ∧ bytes ≤ buf.length then
      let buf' := writeAt buf (bytes - sizeofExifHash) e.hash.toDigest
      if bytes - sizeofExifHash = 0 then some buf'
      else fillUpdate rest (bytes - sizeofExifHash) buf'
    else none

/-- The packet for a batch, cut out of a buffer of `size` bytes. -/
def updatePacket (size : Nat) (segment : List Entry) : Option Bytes :=
  (fillUpdate segment (segment.length * sizeofExifHash) (List.replicate size 0)).map
    fun buf => buf.take (segment.length * sizeofExifHash)

/-- **Filling a packet** never leaves the buffer and ends at its start; the
batch stands in the packet in reverse. -/
theorem fillUpdate_spec (segment : List Entry) :
    ∀ buf : Bytes, segment ≠ [] → segment.length * sizeofExifHash ≤ buf.length →
      fillUpdate segment (segment.length * sizeofExifHash) buf =
        some (ExifHash.digests (segment.map Entry.hash).reverse ++
          buf.drop (segment.length * sizeofExifHash)) := by
  induction segment with
  | nil => intro buf h; exact absurd rfl h
  | cons e rest ih =>
      intro buf _ hroom
      have hoff : (e :: rest).length * sizeofExifHash - sizeofExifHash =
          rest.length * sizeofExifHash := by
        simp [Nat.succ_mul]
      have hge : sizeofExifHash ≤ (e :: rest).length * sizeofExifHash := by
        simp [Nat.succ_mul]
      rw [fillUpdate, if_pos ⟨hge, hroom⟩, hoff]
      have hend : rest.length * sizeofExifHash + e.hash.toDigest.length =
          (e :: rest).length * sizeofExifHash := by
        simp [Nat.succ_mul]
      rw [writeAt, hend]
      cases rest with
      | nil => simp
      -- the digest goes to the last slot still free; the rest fills what lies before it
      | cons e' rest =>
          have hlen : (e' :: rest).length * sizeofExifHash ≤ buf.length := by
            rw [← hoff]
            omega
          have htake : (buf.take ((e' :: rest).length * sizeofExifHash)).length =
              (e' :: rest).length * sizeofExifHash := by
            rw [List.length_take, Nat.min_eq_left hlen]
          rw [if_neg (by simp), ih _ (by simp) (by
            rw [List.append_assoc, List.length_append, htake]
            omega)]
          rw [List.append_assoc, List.drop_append_of_le_length (Nat.le_of_eq htake.symm),
            List.drop_of_length_le (Nat.le_of_eq htake), List.nil_append]
          simp [List.append_assoc]

theorem updatePacket_spec {segment : List Entry} {size : Nat} (hne : segment ≠ [])
    (hroom : segment.length * sizeofExifHash ≤ size) :
    updatePacket size segment =
      some (ExifHash.digests (segment.map Entry.hash).reverse) := by
  have hlen : (ExifHash.digests (segment.map Entry.hash).reverse).length =
      segment.length * sizeofExifHash := by
    simp
  rw [updatePacket, fillUpdate_spec segment _ hne (by simpa using hroom), Option.map_some,
    ← hlen, List.take_left]

/-! ## Unpacking a packet -/

/-- `do { bytes -= sizeof(ExifHash); received_hashes.insert(bytes); }
while (bytes != buf)`, with `bytes` as an offset into `buf`. -/
def insertUpdate (buf : Bytes) (bytes : Nat) (received : List ExifHash) :
    Option (List ExifHash) :=
  if sizeofExifHash ≤ bytes ∧ bytes ≤ buf.length then
    let off := bytes - sizeofExifHash
    let received' := received.insert (.ofDigest ((buf.drop off).take sizeofExifHash))
    if off = 0 then some received' else insertUpdate buf off received'
  else none
termination_by bytes
decreasing_by simp only [sizeofExifHash] at *; omega

/-- **Unpacking a packet** of `k` digests never leaves the buffer, ends
exactly at its start and inserts the `k` hashes it holds. -/
theorem insertUpdate_spec (buf : Bytes) (k : Nat) :
    ∀ received : List ExifHash, 0 < k → k * sizeofExifHash ≤ buf.length →
      ∃ r, insertUpdate buf (k * sizeofExifHash) received = some r ∧
        ∀ h, h ∈ r ↔ h ∈ received ∨
          ∃ i < k, h = .ofDigest ((buf.drop (i * sizeofExifHash)).take sizeofExifHash) := by
  induction k with
  | zero => intro _ h; omega
  | succ k ih =>
      intro received _ hroom
      have hoff : (k + 1) * sizeofExifHash - sizeofExifHash = k * sizeofExifHash := by
        simp [Nat.succ_mul]
      have hge : sizeofExifHash ≤ (k + 1) * sizeofExifHash := by simp [Nat.succ_mul]
      -- the slot read first is the last one; the induction covers the slots before it
      have hmem : ∀ h : ExifHash,
          (∃ i < k + 1, h = .ofDigest ((buf.drop (i * sizeofExifHash)).take sizeofExifHash)) ↔
            h = .ofDigest ((buf.drop (k * sizeofExifHash)).take sizeofExifHash) ∨
              ∃ i < k, h =
                .ofDigest ((buf.drop (i * sizeofExifHash)).take sizeofExifHash) := by
        intro h
        constructor
        · rintro ⟨i, hi, rfl⟩
          rcases Nat.lt_succ_iff_lt_or_eq.mp hi with hi | rfl
          · exact Or.inr ⟨i, hi, rfl⟩
          · exact Or.inl rfl
        · rintro (rfl | ⟨i, hi, rfl⟩)
          · exact ⟨k, Nat.lt_succ_self k, rfl⟩
          · exact ⟨i, Nat.lt_succ_of_lt hi, rfl⟩
      rw [insertUpdate, if_pos ⟨hge, hroom⟩, hoff]
      by_cases hk : k = 0
      · subst hk
        refine ⟨_, by rw [Nat.zero_mul, if_pos rfl], fun h => ?_⟩
        rw [hmem, List.mem_insert_iff, or_comm]
        simp
      · have hne : ¬ k * sizeofExifHash = 0 := by
          simp only [sizeofExifHash]
          omega
        obtain ⟨r, hr, hr'⟩ := ih
          (received.insert (.ofDigest ((buf.drop (k * sizeofExifHash)).take sizeofExifHash)))
          (Nat.pos_of_ne_zero hk) (by rw [Nat.succ_mul] at hroom; omega)
        refine ⟨r, by rw [if_neg hne]; exact hr, fun h => ?_⟩
        rw [hr', hmem, List.mem_insert_iff, or_comm (a := h = _), or_assoc]

/-- The slots of a packet of digests are its hashes. -/
theorem digest_slot {hs : List ExifHash} {i : Nat} (hi : i < hs.length) :
    ExifHash.ofDigest (((ExifHash.digests hs).drop (i * sizeofExifHash)).take sizeofExifHash) =
      hs[i] :=
  ExifHash.codec.dec_of_readAt (ExifHash.codec.readAt_pack hi)

/-- A packet of digests is unpacked to its hashes. -/
theorem insertUpdate_digests {hs : List ExifHash} (hne : hs ≠ []) (received : List ExifHash) :
    ∃ r, insertUpdate (ExifHash.digests hs) (ExifHash.digests hs).length received = some r ∧
      ∀ h, h ∈ r ↔ h ∈ received ∨ h ∈ hs := by
  obtain ⟨r, hr, hmem⟩ := insertUpdate_spec (ExifHash.digests hs) hs.length received
    (List.length_pos_iff.mpr hne) (by simp)
  refine ⟨r, by rw [ExifHash.length_digests]; exact hr, fun h => ?_⟩
  rw [hmem]
  refine or_congr Iff.rfl ⟨?_, fun hh => ?_⟩
  · rintro ⟨i, hi, rfl⟩
    rw [digest_slot hi]
    exact List.getElem_mem _
  · obtain ⟨i, hi, rfl⟩ := List.mem_iff_getElem.mp hh
    exact ⟨i, hi, (digest_slot hi).symm⟩

/-- **A packet is unpacked to the batch it was filled from.** -/
theorem insertUpdate_updatePacket {segment : List Entry} {size : Nat} {packet : Bytes}
    (hne : segment ≠ []) (hroom : segment.length * sizeofExifHash ≤ size)
    (hp : updatePacket size segment = some packet) (received : List ExifHash) :
    ∃ r, insertUpdate packet packet.length received = some r ∧
      ∀ h, h ∈ r ↔ h ∈ received ∨ h ∈ segment.map Entry.hash := by
  rw [updatePacket_spec hne hroom] at hp
  cases hp
  have hreverse : (segment.map Entry.hash).reverse ≠ [] := by simpa using hne
  obtain ⟨r, hr, hmem⟩ := insertUpdate_digests hreverse received
  exact ⟨r, hr, fun h => by rw [hmem, List.mem_reverse]⟩

/-! ## The update receiver -/

/-- The socket type of the update connection: `SOCK_DCCP`, or `SOCK_STREAM`
when built with `RELIABLE_UPDATE`. -/
inductive UpdateProtocol where
  | dccp
  | stream
deriving DecidableEq, Repr

/-- `UpdateProtocol::hashes_per_packet`. -/
def UpdateProtocol.hashesPerPacket : UpdateProtocol → Nat
  | .dccp => updateHashesPerPacket
  | .stream => syncHashesPerPacket

theorem UpdateProtocol.hashesPerPacket_pos (protocol : UpdateProtocol) :
    0 < protocol.hashesPerPacket := by
  cases protocol <;> decide

/-- The threads that lock `updated_mutex`. -/
inductive UpdateThread where
  | receiver
  | uploader
deriving DecidableEq, Repr

/-- Control of `update_receiver`. -/
inductive ReceivePc where
  | read (buf : Bytes)     -- in `ReadFully`, with what has arrived so far
  | lock (buf : Bytes)     -- about to lock `updated_mutex`
  | insert (buf : Bytes)   -- holds it
  | stopped
  | overrun                -- the packet loop left its buffer
deriving DecidableEq, Repr

/-- The variables of the uploader that its update receiver shares. -/
structure Receiving where
  pc : ReceivePc
  taken : Nat              -- bytes read so far, on a stream
  updated : Bool
  updatedMutex : Option UpdateThread
  receivedHashes : List ExifHash

namespace Receiving

def start : Receiving := ⟨.read [], 0, false, none, []⟩

/-- `ReadFully` returned `buf`: the end of the update, a length that is no
multiple of `sizeof(ExifHash)` (a warning), or a packet to unpack. -/
def received (s : Receiving) (buf : Bytes) : Receiving :=
  { s with
    pc := if buf.length = 0 then .stopped
      else if buf.length % sizeofExifHash ≠ 0 then .read []
      else .lock buf }

/-- The next step of the thread. `updates` is everything the remote
downloader has written and `closed` whether it has closed its end. On
`SOCK_DCCP` the read returns packet `k`, whichever that is, cut to the
size of the buffer; on a stream it moves `k` more bytes. -/
def step (protocol : UpdateProtocol) (updates : List Bytes) (closed : Bool) (k : Nat)
    (s : Receiving) : Option Receiving :=
  let size := protocol.hashesPerPacket * sizeofExifHash
  match s.pc with
  | .read buf =>
    match protocol with
    | .dccp => (updates[k]?).map fun packet => s.received (packet.take size)
    | .stream =>
      let pending := updates.flatten.drop s.taken
      if 0 < k ∧ k ≤ pending.length ∧ buf.length + k ≤ size then
        let buf' := buf ++ pending.take k
        let s' := { s with taken := s.taken + k }
        some (if buf'.length = size then s'.received buf' else { s' with pc := .read buf' })
      else if closed ∧ pending.length = 0 then some (s.received buf)
      else none
  | .lock buf =>
    if s.updatedMutex = none then
      some { s with updatedMutex := some .receiver, pc := .insert buf }
    else none
  | .insert buf =>
    if s.updated then some { s with updatedMutex := none, pc := .stopped }
    else
      match insertUpdate buf buf.length s.receivedHashes with
      | none => some { s with pc := .overrun }
      | some hashes =>
        some { s with receivedHashes := hashes, updatedMutex := none, pc := .read [] }
  | .stopped => none
  | .overrun => none

/-- `read` returned `0` on `SOCK_DCCP`: the other end is closed. -/
def endOfUpdate (protocol : UpdateProtocol) (closed : Bool) (s : Receiving) :
    Option Receiving :=
  match s.pc with
  | .read _ => if protocol = .dccp ∧ closed then some (s.received []) else none
  | _ => none

end Receiving
/-! ## The codec as a whole -/

/-- **Hashes, digests and texts are the same thing.** A digest of twenty
bytes comes back from its hash and a hash from its digest; two hashes are
`==` exactly when their digests are, and when they print the same; what is
printed are the forty lower-case hexadecimal digits of the digest; and a
packet that is filled back to front with a batch unpacks, back to front, to
the hashes of the batch. -/
theorem hash_codec :
    (∀ digest : Bytes, digest.length = sizeofExifHash →
      (ExifHash.ofDigest digest).toDigest = digest) ∧
    (∀ h : ExifHash, .ofDigest h.toDigest = h) ∧
    (∀ lhs rhs : ExifHash, (lhs.equal rhs = true ↔ lhs.toDigest = rhs.toDigest) ∧
      (lhs.equal rhs = true ↔ lhs.toString = rhs.toString)) ∧
    (∀ h : ExifHash, h.toString = h.toDigest.flatMap hexByte ∧
      h.toString = [h.word0, h.word1, h.word2, h.word3, h.word4].flatMap printWord ∧
      h.toString.length = 40 ∧ ∀ c ∈ h.toString, IsLowerHex c) ∧
    ∀ (protocol : UpdateProtocol) (segment : List Entry) (received : List ExifHash),
      1 ≤ segment.length → segment.length ≤ protocol.hashesPerPacket →
      ∃ packet r, updatePacket (protocol.hashesPerPacket * sizeofExifHash) segment = some packet ∧
        insertUpdate packet packet.length received = some r ∧
        ∀ h, h ∈ r ↔ h ∈ received ∨ h ∈ segment.map Entry.hash := by
  refine ⟨fun _ => ExifHash.toDigest_ofDigest, ExifHash.ofDigest_toDigest, fun lhs rhs => ?_,
    fun h => ?_, fun protocol segment received hpos hle => ?_⟩
  · rw [ExifHash.equal_iff, ExifHash.toDigest_injective, ExifHash.toString_injective]
    exact ⟨Iff.rfl, Iff.rfl⟩
  · exact ⟨h.toString_eq_hexByte, h.toString_eq_printWord, h.length_toString,
      fun _ => ExifHash.isLowerHex_of_mem_toString⟩
  · have hne : segment ≠ [] := List.length_pos_iff.mp hpos
    have hroom : segment.length * sizeofExifHash ≤ protocol.hashesPerPacket * sizeofExifHash :=
      Nat.mul_le_mul_right _ hle
    have hpacket := updatePacket_spec hne hroom
    obtain ⟨r, hr, hmem⟩ := insertUpdate_updatePacket hne hroom hpacket received
    exact ⟨_, r, hpacket, hr, hmem⟩

/-- A digest with leading zeros in every word, and a batch of one hash. -/
theorem hash_codec_leadingZeros :
    (ExifHash.ofDigest (List.replicate 20 1)).toDigest = List.replicate 20 1 ∧
      ∃ packet r, updatePacket (UpdateProtocol.dccp.hashesPerPacket * sizeofExifHash)
          [⟨.ofDigest (List.replicate 20 1), [97]⟩] = some packet ∧
        insertUpdate packet packet.length [] = some r ∧
        .ofDigest (List.replicate 20 1) ∈ r :=
  have hbatch := hash_codec.2.2.2.2 .dccp [⟨.ofDigest (List.replicate 20 1), [97]⟩] []
    (by decide) (by decide)
  ⟨hash_codec.1 _ (by decide), hbatch.elim fun packet h => h.elim fun r h =>
    ⟨packet, r, h.1, h.2.1, (h.2.2 _).mpr (by simp)⟩⟩

end Jpgsync
