import Jpgsync.Update
import Jpgsync.Offer.Batching
import Mathlib.Data.List.Perm.Subperm

/-!
# Update — Transports

The update receiver behind a channel that loses nothing and that the other
side has not closed, for either build: on `SOCK_DCCP` a read returns the
next packet that arrived, on a stream it moves any number of bytes. The
two builds agree on what has been received once the receiver blocks,
exactly when the last packet is full (`hears_all_iff`): `ReadFully` waits
on a stream for the rest of a buffer that never comes.
-/

namespace Jpgsync

open ExifHash

/-- The batches as `Get` hands them out: none empty, none larger than a
packet, no hash twice. -/
structure HandedOut (protocol : UpdateProtocol) (batches : List (List Entry)) : Prop where
  batch : ∀ segment ∈ batches, segment ≠ [] ∧ segment.length ≤ protocol.hashesPerPacket
  distinct : (batches.flatten.map Entry.hash).Nodup

/-- The packets the downloader writes for them. -/
def packetsOf (protocol : UpdateProtocol) (batches : List (List Entry)) : Option (List Bytes) :=
  batches.mapM (updatePacket (protocol.hashesPerPacket * sizeofExifHash))

/-- All of them arrive: on a stream in their order, on `SOCK_DCCP` in any. -/
def Arrived (protocol : UpdateProtocol) (packets arrived : List Bytes) : Prop :=
  match protocol with
  | .dccp => arrived.Perm packets
  | .stream => arrived = packets

/-- The update receiver, and how many packets it has read. -/
structure Delivery where
  receiver : Receiving
  next : Nat

namespace Delivery

def start : Delivery := ⟨.start, 0⟩

/-- The receiver's next step. A packet is read once. -/
def step (protocol : UpdateProtocol) (arrived : List Bytes) (s : Delivery) (k : Nat) :
    Option Delivery :=
  match protocol, s.receiver.pc with
  | .dccp, .read _ =>
    (s.receiver.step .dccp arrived false s.next).map fun receiver => ⟨receiver, s.next + 1⟩
  | _, _ =>
    (s.receiver.step protocol arrived false k).map fun receiver => { s with receiver := receiver }

def system (protocol : UpdateProtocol) (arrived : List Bytes) : StepSystem Delivery Nat :=
  ⟨step protocol arrived⟩

/-- The receiver has run until it blocks. -/
def Blocked (protocol : UpdateProtocol) (arrived : List Bytes) (s : Delivery) : Prop :=
  ∀ k, s.step protocol arrived k = none

end Delivery

/-! ## The batches of the hasher -/

/-- What `Get` returns is the last segment handed out. -/
theorem getStep_segments {s t : ExifHasher} (hst : s.getStep = some t) :
    t.segments = s.segments ∨
      ∃ segment, t.get = .returned segment ∧ t.segments = s.segments ++ [segment] := by
  cases ExifHasher.getMove_of_step hst with
  | lock _ _ _ ht | take _ _ _ ht | wait _ _ _ ht | pastEnd _ _ _ ht =>
      subst ht
      exact .inl rfl
  | walk count segment node _ _ _ ht =>
      subst ht
      exact .inr ⟨segment, rfl, rfl⟩

/-- A caller that always asks for `n` is never handed more. -/
def HandsOut (n : Nat) (s : ExifHasher) : Prop :=
  Pipeline.AskedFor n s.get ∧ ∀ segment ∈ s.segments, segment.length ≤ n

theorem HandsOut.step {args : RunArgs} {n : Nat} {s t : ExifHasher} {a : ExifHasher.Act}
    (h : HandsOut n s) (ha : ∀ count, a = .call count → count = n)
    (hst : s.step args a = some t) : HandsOut n t := by
  obtain ⟨hget, hsegments⟩ := h
  cases a with
  | run =>
      obtain ⟨_, _, hseg, hnotified⟩ := ExifHasher.runStep_frame hst
      refine ⟨?_, by rw [hseg]; exact hsegments⟩
      rcases hnotified with heq | heq
      · rw [heq]
        exact hget
      · rw [heq]
        exact Pipeline.askedFor_notifyGet hget
  | get =>
      have hasked := Pipeline.askedFor_getStep hget hst
      refine ⟨hasked, ?_⟩
      rcases getStep_segments hst with heq | ⟨segment, hreturned, heq⟩
      · rw [heq]
        exact hsegments
      · rw [hreturned] at hasked
        rw [heq]
        intro segment' hmem
        rcases List.mem_append.mp hmem with hmem | hmem
        · exact hsegments segment' hmem
        · rw [List.mem_singleton.mp hmem]
          exact hasked
  | call count =>
      simp only [ExifHasher.step] at hst
      split at hst <;> cases hst
      exact ⟨ha count rfl, hsegments⟩
  | getWakes =>
      simp only [ExifHasher.step] at hst
      split at hst <;> cases hst
      rename_i count hpc
      rw [hpc] at hget
      exact ⟨hget, hsegments⟩
  | take =>
      simp only [ExifHasher.step] at hst
      split at hst <;> cases hst
      exact ⟨trivial, hsegments⟩

/-- **The hasher hands out such batches**, up to the empty one that ends
the update. -/
theorem handedOut_of_reaches {protocol : UpdateProtocol} {args : RunArgs}
    (hu : args.unique = true) {scans : List Scan} {s : ExifHasher}
    (hs : (ExifHasher.system args).Reaches
      (fun _ a => ∀ count, a = .call count → count = protocol.hashesPerPacket) (.start scans) s) :
    HandedOut protocol (s.segments.filter fun segment => !segment.isEmpty) := by
  have hpos := protocol.hashesPerPacket_pos
  have hstart : HandsOut protocol.hashesPerPacket (.start scans) :=
    ⟨trivial, by simp [ExifHasher.start]⟩
  obtain ⟨_, hsegments⟩ := hs.invariant (fun _ _ _ h ha hst => h.step ha hst) hstart
  have hH : s.HandOver args.progressThreshold scans :=
    ExifHasher.handOver_of_reaches hu (hs.mono fun _ a ha => by
      cases a with
      | call count => exact (ha count rfl).symm ▸ hpos
      | run | get | getWakes | take => trivial)
  refine ⟨fun segment hmem => ?_, ?_⟩
  · obtain ⟨hmem, hne⟩ := List.mem_filter.mp hmem
    exact ⟨by simpa using hne, hsegments segment hmem⟩
  · have hflatten : (s.segments.filter fun segment => !segment.isEmpty).flatten <+:
        ExifHasher.firstOfEach [] scans := by
      rw [List.flatten_filter_not_isEmpty, hH.handed, ← hH.rest]
      exact (List.take_prefix _ _).trans (List.prefix_append _ _)
    exact (ExifHasher.nodup_firstOfEach [] scans).sublist (hflatten.sublist.map Entry.hash)

/-! ## Unpacking what was read -/

/-- The hashes `heard` have been read; those of the packet in hand are
still to be inserted. -/
def Heard (heard : List ExifHash) (s : Receiving) : Prop :=
  s.updated = false ∧
    match s.pc with
    | .read _ => s.updatedMutex = none ∧ ∀ h, h ∈ s.receivedHashes ↔ h ∈ heard
    | .lock buf => s.updatedMutex = none ∧ ∃ hs, hs ≠ [] ∧ buf = digests hs ∧
        ∀ h, h ∈ heard ↔ h ∈ s.receivedHashes ∨ h ∈ hs
    | .insert buf => s.updatedMutex = some .receiver ∧ ∃ hs, hs ≠ [] ∧ buf = digests hs ∧
        ∀ h, h ∈ heard ↔ h ∈ s.receivedHashes ∨ h ∈ hs
    | .stopped | .overrun => False

/-- The steps of the receiver between two reads. -/
def handling : ReceivePc → Nat
  | .lock _ => 2
  | .insert _ => 1
  | .read _ | .stopped | .overrun => 0

/-- What has been read of the next buffer. -/
def bufOf : ReceivePc → Bytes
  | .read buf => buf
  | .lock _ | .insert _ | .stopped | .overrun => []

namespace Heard

variable {protocol : UpdateProtocol} {updates : List Bytes} {closed : Bool} {k : Nat}
  {heard hs : List ExifHash} {s t : Receiving}

theorem start : Heard [] Receiving.start := ⟨rfl, rfl, fun _ => Iff.rfl⟩

/-- A read of whole digests is to be unpacked next. -/
theorem received (h : Heard heard s) {buf : Bytes} (hpc : s.pc = .read buf) (hne : hs ≠ []) :
    Heard (heard ++ hs) (s.received (digests hs)) ∧
      (s.received (digests hs)).pc = .lock (digests hs) := by
  have hlen : (digests hs).length ≠ 0 := by
    rw [length_digests]
    exact Nat.mul_ne_zero (by simpa using hne) (by decide)
  have hmod : ¬ (digests hs).length % sizeofExifHash ≠ 0 := by simp
  have hpc' : (s.received (digests hs)).pc = .lock (digests hs) := by
    rw [Receiving.received, if_neg hlen, if_neg hmod]
  simp only [Heard, hpc] at h
  obtain ⟨hup, hmutex, hmem⟩ := h
  refine ⟨?_, hpc'⟩
  simp only [Heard, hpc']
  refine ⟨hup, hmutex, hs, hne, rfl, fun x => ?_⟩
  rw [List.mem_append, ← hmem]
  rfl

/-- **Between two reads** the packet in hand is inserted, and nothing more
is read. -/
theorem step (h : Heard heard s) (hpc : ∀ buf, s.pc ≠ .read buf)
    (hst : s.step protocol updates closed k = some t) :
    Heard heard t ∧ handling t.pc < handling s.pc ∧ t.taken = s.taken ∧ bufOf t.pc = [] := by
  unfold Receiving.step at hst
  dsimp only at hst
  split at hst
  next buf hread => exact absurd hread (hpc buf)
  next buf hlock =>
    simp only [Heard, hlock] at h
    split at hst <;> cases hst
    exact ⟨⟨h.1, rfl, h.2.2⟩, by simp [handling, hlock], rfl, rfl⟩
  next buf hins =>
    simp only [Heard, hins] at h
    obtain ⟨hup, _, hs, hne, rfl, hmem⟩ := h
    obtain ⟨r, hr, hr'⟩ := insertUpdate_digests hne s.receivedHashes
    simp only [hup, Bool.false_eq_true, if_false, hr, Option.some.injEq] at hst
    subst hst
    exact ⟨⟨rfl, rfl, fun x => by rw [hmem, hr']⟩, by simp [handling, hins], rfl, rfl⟩
  next hstop => simp [Heard, hstop] at h
  next hover => simp [Heard, hover] at h

/-- Only in a read does the receiver block. -/
theorem enabled (h : Heard heard s) (hpc : ∀ buf, s.pc ≠ .read buf) :
    (s.step protocol updates closed k).isSome := by
  unfold Receiving.step
  dsimp only
  split
  next buf hread => exact absurd hread (hpc buf)
  next buf hlock =>
    simp only [Heard, hlock] at h
    simp [h.2.1]
  next buf hins =>
    split
    · rfl
    · split <;> rfl
  next hstop => simp [Heard, hstop] at h
  next hover => simp [Heard, hover] at h

end Heard

/-! ## What both builds should come to -/

/-- Nothing that was announced is offered, whatever the local images. -/
def NoneOffered (announced received : List ExifHash) : Prop :=
  ∀ (entries : List Entry) (t : Batching),
    (Batching.system received).Reachable (.start entries) t →
      ∀ offer ∈ t.offered, ∀ e ∈ offer, e.hash ∉ announced

/-- **The update is heard**: a state in which the receiver blocks can
always be reached, and once it blocks with all packets arrived,
`received_hashes` is the set of all hashes sent, so that nothing announced
is offered. -/
def HearsAll (protocol : UpdateProtocol) (batches : List (List Entry)) : Prop :=
  ∃ packets, packetsOf protocol batches = some packets ∧
    ∀ arrived, Arrived protocol packets arrived →
      (∃ s, (Delivery.system protocol arrived).Reachable .start s ∧
        s.Blocked protocol arrived) ∧
      ∀ s, (Delivery.system protocol arrived).Reachable .start s → s.Blocked protocol arrived →
        (∀ h, h ∈ s.receiver.receivedHashes ↔ h ∈ batches.flatten.map Entry.hash) ∧
          NoneOffered (batches.flatten.map Entry.hash) s.receiver.receivedHashes

theorem noneOffered_of_received {announced received : List ExifHash}
    (h : ∀ x, x ∈ received ↔ x ∈ announced) : NoneOffered announced received := by
  intro entries t ht offer hoffer e he
  have hsplit := (Batching.batched_of_reachable ht).split
  have hmem : e ∈ t.offered.flatten ++ t.prepared :=
    List.mem_append_left _ (List.mem_flatten.mpr ⟨offer, hoffer, he⟩)
  rw [hsplit, List.mem_filter, decide_eq_true_eq, h] at hmem
  exact hmem.2

variable {protocol : UpdateProtocol} {batches : List (List Entry)}

/-- The hashes of a batch as they stand in its packet. -/
def packed (segment : List Entry) : List ExifHash := (segment.map Entry.hash).reverse

theorem packetsOf_eq (h : HandedOut protocol batches) :
    packetsOf protocol batches = some ((batches.map packed).map digests) := by
  have hbatch := h.batch
  clear h
  induction batches with
  | nil => rfl
  | cons segment batches ih =>
      obtain ⟨hne, hroom⟩ := hbatch segment (by simp)
      have hpacket := updatePacket_spec hne (Nat.mul_le_mul_right sizeofExifHash hroom)
      have hrest := ih fun segment' hmem => hbatch segment' (List.mem_cons_of_mem _ hmem)
      rw [packetsOf] at hrest ⊢
      rw [List.mapM_cons, hpacket, Option.bind_eq_bind, Option.bind_some, hrest]
      rfl

theorem perm_packed (batches : List (List Entry)) :
    (batches.map packed).flatten.Perm (batches.flatten.map Entry.hash) := by
  induction batches with
  | nil => exact .refl _
  | cons segment batches ih =>
      rw [List.map_cons, List.flatten_cons, List.flatten_cons, List.map_append]
      exact (List.reverse_perm _).append ih

/-! ## One packet per read -/

namespace Delivery

variable {groups : List (List ExifHash)} {hs : List ExifHash} {k : Nat} {s t : Delivery}

/-- As many packets are heard as have been read. -/
def HeardPackets (groups : List (List ExifHash)) (s : Delivery) : Prop :=
  s.next ≤ groups.length ∧ Heard (groups.take s.next).flatten s.receiver

/-- Packets still to be read, and the steps of the one in hand. -/
def packetWork (groups : List (List ExifHash)) (s : Delivery) : Nat :=
  3 * (groups.length - s.next) + handling s.receiver.pc

theorem HeardPackets.step
    (hg : ∀ hs ∈ groups, hs ≠ [] ∧ hs.length ≤ UpdateProtocol.dccp.hashesPerPacket)
    (h : HeardPackets groups s) (hst : s.step .dccp (groups.map digests) k = some t) :
    HeardPackets groups t ∧ packetWork groups t < packetWork groups s := by
  obtain ⟨hle, hheard⟩ := h
  unfold Delivery.step at hst
  split at hst
  next buf hpc =>
    obtain ⟨receiver, hrec, rfl⟩ := Option.map_eq_some_iff.mp hst
    simp only [Receiving.step, hpc, List.getElem?_map, Option.map_map] at hrec
    obtain ⟨hs, hget, rfl⟩ := Option.map_eq_some_iff.mp hrec
    obtain ⟨hlt, rfl⟩ := List.getElem?_eq_some_iff.mp hget
    obtain ⟨hne, hroom⟩ := hg _ (List.getElem_mem hlt)
    have hwhole : (digests groups[s.next]).take
        (UpdateProtocol.dccp.hashesPerPacket * sizeofExifHash) = digests groups[s.next] :=
      List.take_of_length_le (by rw [length_digests]; exact Nat.mul_le_mul_right _ hroom)
    obtain ⟨hnext, hlock⟩ := hheard.received hpc hne
    simp only [Function.comp_apply, hwhole]
    refine ⟨⟨hlt, ?_⟩, ?_⟩
    · rw [← List.take_append_getElem hlt, List.flatten_append, List.flatten_singleton]
      exact hnext
    · simp only [packetWork, hlock, hpc, handling]
      omega
  next hpc =>
    obtain ⟨receiver, hrec, rfl⟩ := Option.map_eq_some_iff.mp hst
    obtain ⟨hnext, hlt, _⟩ := hheard.step (fun buf hread => hpc buf rfl hread) hrec
    exact ⟨⟨hle, hnext⟩, by simp only [packetWork]; omega⟩

/-- When the receiver blocks, every packet is heard. -/
theorem HeardPackets.blocked (h : HeardPackets groups s)
    (hb : s.Blocked .dccp (groups.map digests)) :
    ∀ x, x ∈ s.receiver.receivedHashes ↔ x ∈ groups.flatten := by
  obtain ⟨hle, hheard⟩ := h
  have hstuck := hb 0
  unfold Delivery.step at hstuck
  split at hstuck
  next buf hpc =>
    simp only [Receiving.step, hpc, List.getElem?_map, Option.map_map, Option.map_eq_none_iff,
      List.getElem?_eq_none_iff] at hstuck
    simp only [Heard, hpc, List.take_of_length_le hstuck] at hheard
    exact hheard.2.2
  next hpc =>
    have hen : (s.receiver.step .dccp (groups.map digests) false 0).isSome :=
      hheard.enabled fun buf hread => hpc buf rfl hread
    rw [Option.map_eq_none_iff.mp hstuck] at hen
    cases hen

/-! ## A stream -/

/-- The first `m` hashes, a number of whole buffers, have been read; of the
next buffer there are less than its bytes. -/
structure HeardBytes (hs : List ExifHash) (m : Nat) (s : Delivery) : Prop where
  heard : Heard (hs.take m) s.receiver
  whole : UpdateProtocol.stream.hashesPerPacket ∣ m
  most : m ≤ hs.length
  taken : s.receiver.taken ≤ (digests hs).length
  read : (digests hs).take s.receiver.taken = digests (hs.take m) ++ bufOf s.receiver.pc
  short : (bufOf s.receiver.pc).length < UpdateProtocol.stream.hashesPerPacket * sizeofExifHash

/-- Bytes still to be read, and the steps of the buffer in hand. -/
def byteWork (hs : List ExifHash) (s : Delivery) : Nat :=
  3 * ((digests hs).length - s.receiver.taken) + handling s.receiver.pc

/-- Where a read of the stream ends. -/
theorem HeardBytes.taken_eq {m : Nat} (h : HeardBytes hs m s) :
    s.receiver.taken = m * sizeofExifHash + (bufOf s.receiver.pc).length := by
  have hlen := congrArg List.length h.read
  rw [List.length_take, Nat.min_eq_left h.taken, List.length_append, length_digests,
    List.length_take, Nat.min_eq_left h.most] at hlen
  exact hlen

/-- A buffer that has filled holds the next hashes. -/
theorem HeardBytes.filled {m n : Nat} {buf : Bytes} (hmost : m ≤ hs.length)
    (hread : (digests hs).take n = digests (hs.take m) ++ buf) (hn : n ≤ (digests hs).length)
    (hbuf : buf.length = UpdateProtocol.stream.hashesPerPacket * sizeofExifHash) :
    m + UpdateProtocol.stream.hashesPerPacket ≤ hs.length ∧
      buf = digests ((hs.drop m).take UpdateProtocol.stream.hashesPerPacket) := by
  have hlen := congrArg List.length hread
  rw [List.length_take, Nat.min_eq_left hn, List.length_append, length_digests, List.length_take,
    Nat.min_eq_left hmost, hbuf, ← Nat.add_mul] at hlen
  rw [length_digests, hlen] at hn
  refine ⟨Nat.le_of_mul_le_mul_right hn (by decide), ?_⟩
  have htake : (digests hs).take n =
      digests (hs.take (m + UpdateProtocol.stream.hashesPerPacket)) := by
    rw [hlen]
    exact codec.take_pack hs _
  rw [htake, List.take_add, digests, RecordCodec.pack_append] at hread
  exact (List.append_cancel_left hread).symm

theorem HeardBytes.step {arrived : List Bytes} {m : Nat} (harr : arrived.flatten = digests hs)
    (h : HeardBytes hs m s) (hst : s.step .stream arrived k = some t) :
    ∃ m', HeardBytes hs m' t ∧ byteWork hs t < byteWork hs s := by
  have hrec : ∃ receiver, s.receiver.step .stream arrived false k = some receiver ∧
      { s with receiver := receiver } = t := by
    unfold Delivery.step at hst
    split at hst
    next _ _ hproto _ => cases hproto
    next => exact Option.map_eq_some_iff.mp hst
  obtain ⟨receiver, hrec, rfl⟩ := hrec
  by_cases hpc : ∃ buf, s.receiver.pc = .read buf
  · obtain ⟨buf, hpc⟩ := hpc
    have hbufOf : bufOf s.receiver.pc = buf := by rw [hpc]; rfl
    simp only [Receiving.step, hpc, harr] at hrec
    split at hrec
    next hk =>
      obtain ⟨hpos, hpending, hroom⟩ := hk
      rw [List.length_drop] at hpending
      have hle : s.receiver.taken + k ≤ (digests hs).length := by omega
      have hread : (digests hs).take (s.receiver.taken + k) = digests (hs.take m) ++
          (buf ++ ((digests hs).drop s.receiver.taken).take k) := by
        rw [List.take_add, h.read, hbufOf, List.append_assoc]
      simp only [Option.some.injEq] at hrec
      split at hrec
      next hfull =>
        obtain ⟨hmost, hbuf⟩ := HeardBytes.filled h.most hread hle hfull
        have hne : (hs.drop m).take UpdateProtocol.stream.hashesPerPacket ≠ [] := by
          intro hnil
          rw [hbuf, hnil] at hfull
          exact absurd hfull (by decide)
        have hheard : Heard (hs.take m) { s.receiver with taken := s.receiver.taken + k } := h.heard
        obtain ⟨hnext, hlock⟩ := hheard.received hpc hne
        rw [← List.take_add] at hnext
        replace hnext : Heard (hs.take (m + UpdateProtocol.stream.hashesPerPacket)) receiver := by
          rw [← hrec, hbuf]
          exact hnext
        replace hlock : receiver.pc = .lock (digests
            ((hs.drop m).take UpdateProtocol.stream.hashesPerPacket)) := by
          rw [← hrec, hbuf]
          exact hlock
        have htaken : receiver.taken = s.receiver.taken + k := by rw [← hrec]; rfl
        have hempty : bufOf receiver.pc = [] := by rw [hlock]; rfl
        refine ⟨m + UpdateProtocol.stream.hashesPerPacket,
          ⟨hnext, Nat.dvd_add h.whole (Nat.dvd_refl _), hmost, htaken.trans_le hle, ?_, ?_⟩, ?_⟩
        · rw [htaken, hempty, hread, hbuf, List.take_add, List.append_nil]
          exact (RecordCodec.pack_append _ _ _).symm
        · rw [hempty]
          decide
        · simp only [byteWork, htaken, hlock, hpc, handling]
          omega
      next hpart =>
        subst hrec
        refine ⟨m, ⟨?_, h.whole, h.most, hle, hread, ?_⟩, ?_⟩
        · have hheard := h.heard
          simp only [Heard, hpc] at hheard
          exact hheard
        · refine Nat.lt_of_le_of_ne ?_ hpart
          show (buf ++ ((digests hs).drop s.receiver.taken).take k).length ≤ _
          rw [List.length_append, List.length_take]
          omega
        · simp only [byteWork, hpc, handling]
          omega
    next => simp at hrec
  · obtain ⟨hnext, hlt, htaken, hbuf⟩ := h.heard.step (fun buf hread => hpc ⟨buf, hread⟩) hrec
    have hnone : bufOf s.receiver.pc = [] := by
      cases hpc' : s.receiver.pc with
      | read buf => exact absurd ⟨buf, hpc'⟩ hpc
      | lock | insert | stopped | overrun => rfl
    refine ⟨m, ⟨hnext, h.whole, h.most, by rw [htaken]; exact h.taken, ?_, ?_⟩, ?_⟩
    · rw [htaken, hbuf, h.read, hnone]
    · rw [hbuf]
      decide
    · simp only [byteWork, htaken]
      omega

/-- When the receiver blocks, everything has been read, and less than a
buffer of it is not heard. -/
theorem HeardBytes.blocked {arrived : List Bytes} {m : Nat} (harr : arrived.flatten = digests hs)
    (h : HeardBytes hs m s) (hb : s.Blocked .stream arrived) :
    (∀ x, x ∈ s.receiver.receivedHashes ↔ x ∈ hs.take m) ∧
      hs.length < m + UpdateProtocol.stream.hashesPerPacket := by
  have hstuck : ∀ k, s.receiver.step .stream arrived false k = none := by
    intro k
    have hk := hb k
    unfold Delivery.step at hk
    split at hk
    next _ _ hproto _ => cases hproto
    next => exact Option.map_eq_none_iff.mp hk
  by_cases hpc : ∃ buf, s.receiver.pc = .read buf
  · obtain ⟨buf, hpc⟩ := hpc
    have hheard := h.heard
    simp only [Heard, hpc] at hheard
    refine ⟨hheard.2.2, ?_⟩
    have htaken := h.taken_eq
    have hshort := h.short
    have hmost := h.taken
    rw [length_digests] at hmost
    -- a byte that is pending could be read
    have hdrained : ¬ s.receiver.taken < (digests hs).length := by
      intro hlt
      have hone := hstuck 1
      have hbufOf : bufOf s.receiver.pc = buf := by rw [hpc]; rfl
      rw [hbufOf] at hshort
      simp only [Receiving.step, hpc, harr] at hone
      rw [if_pos ⟨Nat.one_pos, by rw [List.length_drop]; omega, by omega⟩] at hone
      cases hone
    rw [length_digests] at hdrained
    simp only [sizeofExifHash] at *
    omega
  · have hen : (s.receiver.step .stream arrived false 0).isSome :=
      h.heard.enabled fun buf hread => hpc ⟨buf, hread⟩
    rw [hstuck 0] at hen
    cases hen

end Delivery

/-! ## The two builds -/

/-- **One packet per read** hears everything, in whatever order the packets
arrive. -/
theorem hears_all_dccp (h : HandedOut .dccp batches) : HearsAll .dccp batches := by
  refine ⟨_, packetsOf_eq h, fun arrived harr => ?_⟩
  let unpacked (packet : Bytes) : List ExifHash :=
    ofDigests (packet.length / sizeofExifHash) packet
  have hunpacked : ∀ hs : List ExifHash, unpacked (digests hs) = hs := by
    intro hs
    simp only [unpacked, length_digests, Nat.mul_div_cancel _ (show 0 < sizeofExifHash by decide)]
    exact ofDigests_digests hs
  -- the packets that arrived are the packed batches in another order
  have hgroups : (arrived.map unpacked).Perm (batches.map packed) := by
    have hperm := List.Perm.map unpacked (show arrived.Perm _ from harr)
    rwa [List.map_map, show unpacked ∘ digests = id from funext hunpacked, List.map_id] at hperm
  have hback : (arrived.map unpacked).map digests = arrived := by
    rw [List.map_map]
    refine (List.map_congr_left fun packet hpacket => ?_).trans (List.map_id' arrived)
    obtain ⟨hs, _, rfl⟩ := List.mem_map.mp ((show arrived.Perm _ from harr).mem_iff.mp hpacket)
    exact congrArg digests (hunpacked hs)
  have hgroup : ∀ hs ∈ arrived.map unpacked,
      hs ≠ [] ∧ hs.length ≤ UpdateProtocol.dccp.hashesPerPacket := by
    intro hs hmem
    obtain ⟨segment, hseg, rfl⟩ := List.mem_map.mp (hgroups.mem_iff.mp hmem)
    simpa [packed] using h.batch segment hseg
  generalize arrived.map unpacked = groups at hgroups hback hgroup
  subst hback
  have hstart : Delivery.HeardPackets groups .start := ⟨Nat.zero_le _, Heard.start⟩
  refine ⟨?_, fun s hs hb => ?_⟩
  · have hprogress : ∀ (s : Delivery) (k : Nat) (t : Delivery), Delivery.HeardPackets groups s →
        (Delivery.system .dccp (groups.map digests)).step s k = some t →
        Delivery.HeardPackets groups t ∧
          Delivery.packetWork groups t < Delivery.packetWork groups s :=
      fun _ _ _ hI hst => hI.step hgroup hst
    obtain ⟨s, hs, _, hb⟩ := StepSystem.exists_stuck hprogress hstart
    exact ⟨s, hs, hb⟩
  · have hheard : Delivery.HeardPackets groups s :=
      hs.invariant (fun _ _ _ hI hst => (hI.step hgroup hst).1) hstart
    have hmem : ∀ x, x ∈ s.receiver.receivedHashes ↔ x ∈ batches.flatten.map Entry.hash := by
      intro x
      rw [hheard.blocked hb, hgroups.flatten.mem_iff, (perm_packed batches).mem_iff]
    exact ⟨hmem, noneOffered_of_received hmem⟩

/-- **A stream** hears everything exactly when the last packet is full. -/
theorem hears_all_stream_iff (h : HandedOut .stream batches) :
    HearsAll .stream batches ↔
      UpdateProtocol.stream.hashesPerPacket ∣ batches.flatten.length := by
  have harr : ((batches.map packed).map digests).flatten =
      digests (batches.map packed).flatten := codec.flatten_map_pack _
  have hperm := perm_packed batches
  generalize (batches.map packed).flatten = hs at harr hperm
  have hlen : hs.length = batches.flatten.length := by rw [hperm.length_eq, List.length_map]
  have hstart : ∃ m, Delivery.HeardBytes hs m .start :=
    ⟨0, Heard.start, Nat.dvd_zero _, Nat.zero_le _, Nat.zero_le _, rfl, by decide⟩
  have hstep : ∀ s k t, (∃ m, Delivery.HeardBytes hs m s) →
      (Delivery.system .stream ((batches.map packed).map digests)).step s k = some t →
      (∃ m, Delivery.HeardBytes hs m t) ∧ Delivery.byteWork hs t < Delivery.byteWork hs s := by
    rintro s k t ⟨m, hm⟩ hst
    obtain ⟨m', hm', hlt⟩ := hm.step harr hst
    exact ⟨⟨m', hm'⟩, hlt⟩
  rw [← hlen]
  constructor
  · rintro ⟨packets, hp, hall⟩
    rw [packetsOf_eq h] at hp
    cases hp
    obtain ⟨⟨s, hreach, hb⟩, hend⟩ := hall _ rfl
    obtain ⟨m, hm⟩ := hreach.invariant (fun s k t hI hst => (hstep s k t hI hst).1) hstart
    -- no hash stands twice, so all hashes are among the first `m` only if these are all
    have hsub : hs ⊆ hs.take m := fun x hx => by
      rw [← (hm.blocked harr hb).1, (hend s hreach hb).1, ← hperm.mem_iff]
      exact hx
    have hle := ((hperm.nodup_iff.mpr h.distinct).subperm hsub).length_le
    rw [List.length_take] at hle
    have hm' : hs.length = m := Nat.le_antisymm (Nat.le_trans hle (Nat.min_le_left _ _)) hm.most
    rw [hm']
    exact hm.whole
  · intro hdvd
    refine ⟨_, packetsOf_eq h, fun arrived harr' => ?_⟩
    obtain rfl : arrived = (batches.map packed).map digests := harr'
    refine ⟨?_, fun s hreach hb => ?_⟩
    · obtain ⟨s, hreach, _, hb⟩ := StepSystem.exists_stuck hstep hstart
      exact ⟨s, hreach, hb⟩
    · obtain ⟨m, hm⟩ := hreach.invariant (fun s k t hI hst => (hstep s k t hI hst).1) hstart
      obtain ⟨hheard, hlt⟩ := hm.blocked harr hb
      -- what is not heard is a multiple of a buffer and less than one
      have hrest : hs.length - m = 0 :=
        Nat.eq_zero_of_dvd_of_lt (Nat.dvd_sub hdvd hm.whole)
          (Nat.sub_lt_left_of_lt_add hm.most hlt)
      have hset : ∀ x, x ∈ s.receiver.receivedHashes ↔ x ∈ batches.flatten.map Entry.hash := by
        intro x
        rw [hheard, List.take_of_length_le (by omega), hperm.mem_iff]
      exact ⟨hset, noneOffered_of_received hset⟩

/-- **When the two builds agree**: for the same hashes, batched by either
build, both hear everything exactly when the hashes fill the packets of
the stream. -/
theorem transports_agree_iff {packets chunks : List (List Entry)} (hp : HandedOut .dccp packets)
    (hc : HandedOut .stream chunks) (hsame : packets.flatten = chunks.flatten) :
    HearsAll .dccp packets ∧ HearsAll .stream chunks ↔
      UpdateProtocol.stream.hashesPerPacket ∣ packets.flatten.length := by
  rw [hsame, ← hears_all_stream_iff hc]
  exact and_iff_right (hears_all_dccp hp)

/-- One image. -/
def oneEntry : List (List Entry) := [[⟨⟨1, 0, 0, 0, 0⟩, [97]⟩]]

theorem handedOut_oneEntry (protocol : UpdateProtocol) : HandedOut protocol oneEntry := by
  refine ⟨fun segment hseg => ?_, by decide⟩
  rw [List.mem_singleton.mp hseg]
  cases protocol <;> decide

/-- **The two builds do not agree**: with one image, the receiver of a
stream waits for more than the twenty bytes that come. -/
theorem not_always_transports_agree :
    ¬ ∀ packets chunks : List (List Entry), HandedOut .dccp packets → HandedOut .stream chunks →
        packets.flatten = chunks.flatten → HearsAll .dccp packets ∧ HearsAll .stream chunks := by
  intro hall
  have hagree := (hall oneEntry oneEntry (handedOut_oneEntry _) (handedOut_oneEntry _) rfl).2
  rw [hears_all_stream_iff (handedOut_oneEntry _)] at hagree
  exact absurd hagree (by decide)

/-- As many images as a packet of the stream holds. -/
def fullChunk : List (List Entry) :=
  [(List.range 26).map fun i => ⟨⟨UInt32.ofNat i, 0, 0, 0, 0⟩, [97]⟩]

theorem handedOut_fullChunk (protocol : UpdateProtocol) : HandedOut protocol fullChunk := by
  refine ⟨fun segment hseg => ?_, by decide +kernel⟩
  rw [List.mem_singleton.mp hseg]
  cases protocol <;> decide

theorem transports_agree_fullChunk : HearsAll .dccp fullChunk ∧ HearsAll .stream fullChunk :=
  (transports_agree_iff (handedOut_fullChunk _) (handedOut_fullChunk _) rfl).mpr (by decide)

end Jpgsync
