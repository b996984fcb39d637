import Jpgsync.Download
import Jpgsync.Offer.Agreement

/-!
# Download — Moves

What one step of the receive loop can do, said once. Most steps only move
bytes from the connection into a buffer, which changes neither the bytes
read since the last complete item (`consumed`) followed by the pending
ones, nor the hashes still awaited. The others answer an offer, create a
file, store it, end the loop or call `Fatal`.
-/

namespace Jpgsync
namespace DownloadPc

/-- **The buffers are within their bounds.** -/
def InBounds : DownloadPc → Prop
  | .offer hashCount buf =>
    hashCount.toNat ≤ syncHashesPerPacket ∧ buf.length ≤ hashCount.toNat * sizeofExifHash
  | .answer hashCount buf =>
    hashCount.toNat ≤ syncHashesPerPacket ∧ buf.length = hashCount.toNat * sizeofExifHash
  | .name _ filenameLen filename _ => filename.length ≤ filenameLen.toNat
  | .size _ filename buf _ => filename.length < sizeofFilename ∧ buf.length ≤ sizeofFileSize
  | .create _ filename fileSize _ => filename.length < sizeofFilename ∧ fileSize < 2 ^ 32
  | .payload _ filename fileSize _ bytes _ =>
    filename.length < sizeofFilename ∧ bytes.length ≤ fileSize ∧ fileSize < 2 ^ 32
  | .store _ filename _ bytes _ => filename.length < sizeofFilename ∧ bytes.length < 2 ^ 32
  | .overrun => False
  | .update | .notify | .count | .mask _ _ | .file _ | .closed => True

/-- The receive loop has begun. -/
def InLoop : DownloadPc → Prop
  | .update | .notify => False
  | _ => True

/-- The bytes read since the last complete offer or file. -/
def consumed : DownloadPc → Bytes
  | .offer hashCount buf | .answer hashCount buf => hashCount :: buf
  | .name _ filenameLen filename _ => filenameLen :: filename
  | .size _ filename buf _ => UInt8.ofNat filename.length :: filename ++ buf
  | .create _ filename fileSize _ =>
    UInt8.ofNat filename.length :: filename ++ writeFileSize fileSize
  | .payload _ filename fileSize _ bytes _ =>
    UInt8.ofNat filename.length :: filename ++ (writeFileSize fileSize ++ bytes)
  | .store _ filename _ bytes _ =>
    UInt8.ofNat filename.length :: filename ++ (writeFileSize bytes.length ++ bytes)
  | .update | .notify | .count | .mask _ _ | .file _ | .closed | .overrun => []

/-- The accepted hashes whose files have not been received yet. -/
def awaited : DownloadPc → List ExifHash
  | .mask _ missing | .file missing => missing
  | .name hash _ _ missing | .size hash _ _ missing | .create hash _ _ missing
  | .payload hash _ _ _ _ missing | .store hash _ _ _ missing => hash :: missing
  | .update | .notify | .count | .offer _ _ | .answer _ _ | .closed | .overrun => []

/-- The bytes of the answer that are still to be sent. -/
def unanswered : DownloadPc → Bytes
  | .mask rest _ => rest
  | _ => []

/-- The file that is open for the current download. -/
def opened : DownloadPc → Option (ExifHash × Bytes × Option Bytes)
  | .payload hash filename _ target _ _ | .store hash filename target _ _ =>
    some (hash, filename, target)
  | _ => none

/-- The read at this point still needs bytes. -/
def Short : DownloadPc → Prop
  | .offer hashCount buf => buf.length ≠ hashCount.toNat * sizeofExifHash
  | .file missing => missing ≠ []
  | .name _ filenameLen filename _ => filename.length ≠ filenameLen.toNat
  | .size _ _ buf _ => buf.length ≠ sizeofFileSize
  | .payload _ _ fileSize _ bytes _ => bytes.length ≠ fileSize
  | _ => False

/-- If an offer is about to be answered, the answer says what was found: at
most one hash is, among the first eight. -/
def AnswersExactly (contains : ExifHash → Bool) : DownloadPc → Prop
  | .answer hashCount buf => FoundOnceEarly contains (ExifHash.ofDigests hashCount.toNat buf)
  | .update | .notify | .count | .offer _ _ | .mask _ _ | .file _ | .name _ _ _ _ | .size _ _ _ _
  | .create _ _ _ _ | .payload _ _ _ _ _ _ | .store _ _ _ _ _ | .closed | .overrun => True

instance (contains : ExifHash → Bool) : DecidablePred (AnswersExactly contains)
  | .answer hashCount buf => inferInstanceAs (Decidable (FoundOnceEarly contains
      (ExifHash.ofDigests hashCount.toNat buf)))
  | .update | .notify | .count | .offer _ _ | .mask _ _ | .file _ | .name _ _ _ _ | .size _ _ _ _
  | .create _ _ _ _ | .payload _ _ _ _ _ _ | .store _ _ _ _ _ | .closed | .overrun =>
    isTrue trivial

end DownloadPc

namespace Reception

open DownloadPc

variable {contains : ExifHash → Bool} {downloadDir : Bytes} {k : Nat} {s t : Reception}

/-- A step that at most reads: what is consumed and pending together, and
everything else, stays. -/
structure Reads (s t : Reception) : Prop where
  host : t.host = s.host
  accepted : t.accepted = s.accepted
  downloads : t.downloads = s.downloads
  output : t.output = s.output
  sent : t.input.sent = s.input.sent
  closed : t.input.closed = s.input.closed
  conserved : consumed t.pc ++ t.input.pending = consumed s.pc ++ s.input.pending
  awaited : awaited t.pc = awaited s.pc
  unanswered : unanswered t.pc = unanswered s.pc
  opened : opened t.pc = opened s.pc
  inLoop : InLoop t.pc
  notClosed : t.pc ≠ .closed
  before : s.pc ≠ .closed ∧ s.pc ≠ .update ∧ s.pc ≠ .notify

/-- Why the receive loop calls `Fatal`: a count out of range, or the stream
ended inside an offer or a file. -/
inductive Broken (s : Reception) : Prop
  | count (hashCount : UInt8) (rest : Bytes) (hpc : s.pc = .count)
      (hpending : s.input.pending = hashCount :: rest)
      (hlarge : syncHashesPerPacket < hashCount.toNat)
  | ended (hclosed : s.input.closed = true) (hpending : s.input.pending = [])
      (hshort : Short s.pc)

/-- **What one step can do.** -/
inductive Move (contains : ExifHash → Bool) (downloadDir : Bytes) (k : Nat)
    (s t : Reception) : Prop
  | read (h : Reads s t)
  | reply (rest rest' : Bytes) (missing : List ExifHash) (hpc : s.pc = .mask rest missing)
      (hrest : rest ≠ [])
      (ht : t = { s with pc := .mask rest' missing, output := t.output })
      (hpending : t.output.pending ++ rest' = s.output.pending ++ rest)
      (hclosed : t.output.closed = s.output.closed)
  | answer (hashCount : UInt8) (buf : Bytes) (a : Answer) (hpc : s.pc = .answer hashCount buf)
      (ha : answerOffer contains sizeofFoundBitmask buf = some a)
      (ht : t = { s with
        accepted := s.accepted ++ a.missingHashes
        pc := .mask (a.foundBitmask.take (foundBitmaskSize hashCount.toNat)) a.missingHashes })
  | create (hash : ExifHash) (filename : Bytes) (fileSize : Nat) (missing : List ExifHash)
      (hpc : s.pc = .create hash filename fileSize missing)
      (ht : t = s.create downloadDir hash filename fileSize missing)
  | store (hash : ExifHash) (filename : Bytes) (target : Option Bytes) (file : Bytes)
      (missing : List ExifHash) (hpc : s.pc = .store hash filename target file missing)
      (ht : t = { s with
        host := { s.host with disk := s.host.disk.store target (file.take k) }
        downloads := s.downloads ++ [⟨hash, filename, target, file⟩]
        pc := .file missing })
  | close (hpc : s.pc = .count) (hclosed : s.input.closed = true) (hpending : s.input.pending = [])
      (ht : t = { s with pc := .closed, output := s.output.close })
  | fail (report : Report) (hbroken : Broken s) (ht : t.host = (s.fatal report).host)
      (hsent : t.input.sent = s.input.sent)

/-- An offer of whole digests is answered without leaving a buffer, with
one bit per offered hash. -/
theorem answerOffer_isSome (contains : ExifHash → Bool) {hashCount : UInt8} {buf : Bytes}
    (h : InBounds (.answer hashCount buf)) {size : Nat}
    (hsize : foundBitmaskSize hashCount.toNat ≤ size) :
    ∃ a, answerOffer contains size buf = some a ∧ a.foundBitmask.length = size := by
  have hbuf := ExifHash.digests_ofDigests h.2
  obtain ⟨a, ha, hlen, _⟩ := @answerOffer_spec contains size
    (ExifHash.ofDigests hashCount.toNat buf) (by
      rw [RecordCodec.length_unpack]
      simp only [foundBitmaskSize, charBit] at hsize ⊢
      omega)
  rw [hbuf] at ha
  exact ⟨a, ha, hlen⟩

theorem ofNat_length_eq {filename : Bytes} {filenameLen : UInt8}
    (h : filename.length = filenameLen.toNat) : UInt8.ofNat filename.length = filenameLen := by
  rw [h, UInt8.ofNat_toNat]

/-- A point at which `ReadExactly` reads into a buffer: the bytes it asks
for, those it has, the point with another buffer, and the one behind the
call. -/
inductive Filling : DownloadPc → Nat → Bytes → (Bytes → DownloadPc) → DownloadPc → Prop
  | offer (hashCount : UInt8) (buf : Bytes) :
    Filling (.offer hashCount buf) (hashCount.toNat * sizeofExifHash) buf (.offer hashCount)
      (.answer hashCount buf)
  | name (hash : ExifHash) (filenameLen : UInt8) (filename : Bytes) (missing : List ExifHash) :
    Filling (.name hash filenameLen filename missing) filenameLen.toNat filename
      (.name hash filenameLen · missing) (.size hash filename [] missing)
  | size (hash : ExifHash) (filename buf : Bytes) (missing : List ExifHash) :
    Filling (.size hash filename buf missing) sizeofFileSize buf (.size hash filename · missing)
      (.create hash filename (readFileSize buf) missing)
  | payload (hash : ExifHash) (filename : Bytes) (fileSize : Nat) (target : Option Bytes)
      (file : Bytes) (missing : List ExifHash) :
    Filling (.payload hash filename fileSize target file missing) fileSize file
      (.payload hash filename fileSize target · missing) (.store hash filename target file missing)

namespace Filling

variable {pc next : DownloadPc} {count : Nat} {buf buf' : Bytes} {more : Bytes → DownloadPc}

theorem short (hf : Filling pc count buf more next) (hlen : buf.length ≠ count) : Short pc := by
  cases hf <;> exact hlen

theorem inBounds_more (hf : Filling pc count buf more next) (h : InBounds pc)
    (hlen : buf'.length ≤ count) : InBounds (more buf') := by
  cases hf with
  | offer hashCount buf => exact ⟨h.1, hlen⟩
  | name hash filenameLen filename missing => exact hlen
  | size hash filename buf missing => exact ⟨h.1, hlen⟩
  | payload hash filename fileSize target file missing => exact ⟨h.1, hlen, h.2.2⟩

theorem inBounds_next (hf : Filling pc count buf more next) (h : InBounds pc)
    (hlen : buf.length = count) : InBounds next := by
  cases hf with
  | offer hashCount buf => exact ⟨h.1, hlen⟩
  | name hash filenameLen filename missing =>
      -- a length byte is less than the size of the buffer
      refine ⟨?_, Nat.zero_le _⟩
      rw [hlen]
      exact filenameLen.toNat_lt
  | size hash filename buf missing => exact ⟨h.1, readFileSize_lt _⟩
  | payload hash filename fileSize target file missing =>
      exact ⟨h.1, Nat.lt_of_le_of_lt h.2.1 h.2.2⟩

/-- The buffer ends what is consumed. -/
theorem consumed_more (hf : Filling pc count buf more next) {pending pending' : Bytes}
    (hcons : buf' ++ pending' = buf ++ pending) :
    consumed (more buf') ++ pending' = consumed pc ++ pending := by
  cases hf <;> simp [consumed, hcons]

theorem consumed_next (hf : Filling pc count buf more next) (hlen : buf.length = count) :
    consumed next = consumed pc := by
  cases hf with
  | offer hashCount buf => rfl
  | name hash filenameLen filename missing => simp [consumed, ofNat_length_eq hlen]
  | size hash filename buf missing => simp [consumed, writeFileSize_readFileSize hlen]
  | payload hash filename fileSize target file missing => simp [consumed, hlen]

/-- Nothing but the buffer changes. -/
theorem frame_more (hf : Filling pc count buf more next) (buf' : Bytes) :
    awaited (more buf') = awaited pc ∧ unanswered (more buf') = unanswered pc ∧
      opened (more buf') = opened pc ∧ InLoop (more buf') ∧ more buf' ≠ .closed := by
  cases hf <;> simp [awaited, unanswered, opened, InLoop]

theorem frame_next (hf : Filling pc count buf more next) :
    awaited next = awaited pc ∧ unanswered next = unanswered pc ∧ opened next = opened pc ∧
      InLoop next ∧ next ≠ .closed := by
  cases hf <;> simp [awaited, unanswered, opened, InLoop]

theorem before (hf : Filling pc count buf more next) :
    pc ≠ .closed ∧ pc ≠ .update ∧ pc ≠ .notify := by
  cases hf <;> simp

end Filling

/-- The branches of one step, of a loop whose buffers are in bounds. -/
inductive Branch (contains : ExifHash → Bool) (downloadDir : Bytes) (k : Nat)
    (s t : Reception) : Prop
  | short {count : Nat} {buf : Bytes} {more : Bytes → DownloadPc} {next : DownloadPc}
      (hf : Filling s.pc count buf more next)
      (hread : readExactly s.input count buf k = some .short) (report : Report)
      (ht : t = s.fatal report)
  | more {count : Nat} {buf : Bytes} (buf' : Bytes) {input : Fifo UInt8}
      {more : Bytes → DownloadPc} {next : DownloadPc} (hf : Filling s.pc count buf more next)
      (hread : readExactly s.input count buf k = some (.more buf' input))
      (ht : t = { s with pc := more buf', input := input })
  | complete {count : Nat} {buf : Bytes} {more : Bytes → DownloadPc} {next : DownloadPc}
      (hf : Filling s.pc count buf more next)
      (hread : readExactly s.input count buf k = some .complete)
      (ht : t = { s with pc := next })
  | close {input : Fifo UInt8} (hpc : s.pc = .count)
      (hread : readByte s.input = some (none, input))
      (ht : t = { s with pc := .closed, output := s.output.close })
  | invalidCount (hashCount : UInt8) {input : Fifo UInt8} (hpc : s.pc = .count)
      (hread : readByte s.input = some (some hashCount, input))
      (hlarge : syncHashesPerPacket < hashCount.toNat)
      (ht : t = fatal { s with input := input } (.invalidHashCount hashCount.toNat))
  | count (hashCount : UInt8) {input : Fifo UInt8} (hpc : s.pc = .count)
      (hread : readByte s.input = some (some hashCount, input))
      (hle : hashCount.toNat ≤ syncHashesPerPacket)
      (ht : t = { s with pc := .offer hashCount [], input := input })
  | answer (hashCount : UInt8) (buf : Bytes) (a : Answer) (hpc : s.pc = .answer hashCount buf)
      (ha : answerOffer contains sizeofFoundBitmask buf = some a)
      (hsize : foundBitmaskSize hashCount.toNat ≤ sizeofFoundBitmask)
      (ht : t = { s with
        accepted := s.accepted ++ a.missingHashes
        pc := .mask (a.foundBitmask.take (foundBitmaskSize hashCount.toNat)) a.missingHashes })
  | reply (rest rest' : Bytes) (missing : List ExifHash) {output : Fifo UInt8}
      (hpc : s.pc = .mask rest missing)
      (hwrite : writeExactly s.output rest k = some (.more rest' output))
      (ht : t = { s with pc := .mask rest' missing, output := output })
  | replied (missing : List ExifHash) (hpc : s.pc = .mask [] missing)
      (ht : t = { s with pc := .file missing })
  | noName (hash : ExifHash) (missing : List ExifHash) {input : Fifo UInt8}
      (hpc : s.pc = .file (hash :: missing)) (hread : readByte s.input = some (none, input))
      (ht : t = s.fatal (.noFilename hash))
  | name (hash : ExifHash) (missing : List ExifHash) (filenameLen : UInt8) {input : Fifo UInt8}
      (hpc : s.pc = .file (hash :: missing))
      (hread : readByte s.input = some (some filenameLen, input))
      (ht : t = { s with pc := .name hash filenameLen [] missing, input := input })
  | done (hpc : s.pc = .file []) (ht : t = { s with pc := .count })
  | create (hash : ExifHash) (filename : Bytes) (fileSize : Nat) (missing : List ExifHash)
      (hpc : s.pc = .create hash filename fileSize missing)
      (ht : t = s.create downloadDir hash filename fileSize missing)
  | store (hash : ExifHash) (filename : Bytes) (target : Option Bytes) (file : Bytes)
      (missing : List ExifHash) (hpc : s.pc = .store hash filename target file missing)
      (ht : t = { s with
        host := { s.host with disk := s.host.disk.store target (file.take k) }
        downloads := s.downloads ++ [⟨hash, filename, target, file⟩]
        pc := .file missing })

/-- A point that reads into a buffer has the branches of `ReadExactly`. -/
theorem branch_of_filling {count : Nat} {buf : Bytes} {more : Bytes → DownloadPc}
    {next : DownloadPc} (hf : Filling s.pc count buf more next) {report : Report}
    (hst : (match readExactly s.input count buf k with
      | none => none
      | some .short => some (s.fatal report)
      | some (.more buf input) => some { s with pc := more buf, input := input }
      | some .complete => some { s with pc := next }) = some t) :
    Branch contains downloadDir k s t := by
  split at hst
  next => cases hst
  next hread => cases hst; exact .short hf hread report rfl
  next buf' input hread => cases hst; exact .more buf' hf hread rfl
  next hread => cases hst; exact .complete hf hread rfl

theorem branch_of_step (h : InBounds s.pc) (hst : s.step contains downloadDir k = some t) :
    Branch contains downloadDir k s t := by
  cases hpc : s.pc with
  | update | notify | closed | overrun => simp [step, hpc] at hst
  | count =>
      simp only [step, hpc] at hst
      split at hst
      next => cases hst
      next input hread => cases hst; exact .close hpc hread rfl
      next hashCount input hread =>
        split at hst
        next hlarge =>
          cases hst
          exact .invalidCount hashCount hpc hread hlarge (by rw [hpc])
        next hle => cases hst; exact .count hashCount hpc hread (Nat.not_lt.mp hle) rfl
  | offer hashCount buf =>
      rw [hpc] at h
      -- the count was checked against `syncHashesPerPacket` when it was read
      have hroom : hashCount.toNat * sizeofExifHash ≤ sizeofOffer :=
        Nat.mul_le_mul_right _ h.1
      simp only [step, hpc, if_neg (Nat.not_lt.mpr hroom)] at hst
      exact branch_of_filling (by rw [hpc]; exact .offer hashCount buf) hst
  | answer hashCount buf =>
      rw [hpc] at h
      have hsize : foundBitmaskSize hashCount.toNat ≤ sizeofFoundBitmask :=
        foundBitmaskSize_mono h.1
      obtain ⟨a, ha, _⟩ := answerOffer_isSome contains h hsize
      simp only [step, hpc, ha, if_neg (Nat.not_lt.mpr hsize)] at hst
      cases hst
      exact .answer hashCount buf a hpc ha hsize rfl
  | mask rest missing =>
      simp only [step, hpc] at hst
      split at hst
      next => cases hst
      next hwrite =>
        have hnone := congrArg List.length (writeExactly_complete hwrite)
        obtain rfl := List.length_eq_zero_iff.mp hnone
        cases hst
        exact .replied missing hpc rfl
      next rest' output hwrite => cases hst; exact .reply rest rest' missing hpc hwrite rfl
  | file missing =>
      cases missing with
      | nil =>
          simp only [step, hpc] at hst
          cases hst
          exact .done hpc rfl
      | cons hash missing =>
          simp only [step, hpc] at hst
          split at hst
          next => cases hst
          next input hread => cases hst; exact .noName hash missing hpc hread rfl
          next filenameLen input hread =>
            cases hst
            exact .name hash missing filenameLen hpc hread rfl
  | name hash filenameLen filename missing =>
      -- a length byte and the terminator fit in 256 bytes
      have hroom : ¬ sizeofFilename < filenameLen.toNat + 1 := by
        have hlt := filenameLen.toNat_lt
        simp only [sizeofFilename]
        omega
      simp only [step, hpc, if_neg hroom] at hst
      exact branch_of_filling (by rw [hpc]; exact .name hash filenameLen filename missing) hst
  | size hash filename buf missing =>
      simp only [step, hpc] at hst
      exact branch_of_filling (by rw [hpc]; exact .size hash filename buf missing) hst
  | create hash filename fileSize missing =>
      simp only [step, hpc] at hst
      cases hst
      exact .create hash filename fileSize missing hpc rfl
  | payload hash filename fileSize target file missing =>
      simp only [step, hpc] at hst
      exact branch_of_filling
        (by rw [hpc]; exact .payload hash filename fileSize target file missing) hst
  | store hash filename target file missing =>
      simp only [step, hpc] at hst
      cases hst
      exact .store hash filename target file missing hpc rfl

/-- **The buffers stay within their bounds**, whatever arrives. -/
theorem inBounds_step (h : InBounds s.pc) (hst : s.step contains downloadDir k = some t)
    : InBounds t.pc := by
  cases branch_of_step h hst with
  | short hf hread report ht => rw [ht]; exact h
  | more buf' hf hread ht => rw [ht]; exact hf.inBounds_more h (readExactly_more hread).2.1
  | complete hf hread ht => rw [ht]; exact hf.inBounds_next h (readExactly_complete hread)
  | invalidCount hashCount hpc hread hlarge ht => rw [ht]; exact h
  | count hashCount hpc hread hle ht => rw [ht]; exact ⟨hle, Nat.zero_le _⟩
  | noName hash missing hpc hread ht => rw [ht]; exact h
  | name hash missing filenameLen hpc hread ht => rw [ht]; exact Nat.zero_le _
  | create hash filename fileSize missing hpc ht =>
      rw [hpc] at h
      rw [ht]
      exact ⟨h.1, Nat.zero_le _, h.2⟩
  | close hpc hread ht | answer hashCount buf a hpc ha hsize ht
  | reply rest rest' missing hpc hwrite ht | replied missing hpc ht | done hpc ht
  | store hash filename target file missing hpc ht => rw [ht]; trivial

/-- A step that only moves on: nothing is read. -/
theorem Reads.goto (hpc : s.pc ≠ .closed ∧ s.pc ≠ .update ∧ s.pc ≠ .notify) {pc : DownloadPc}
    (hcons : consumed pc = consumed s.pc) (hawait : DownloadPc.awaited pc = DownloadPc.awaited s.pc)
    (hun : DownloadPc.unanswered pc = DownloadPc.unanswered s.pc)
    (hopened : DownloadPc.opened pc = DownloadPc.opened s.pc) (hin : InLoop pc)
    (hnc : pc ≠ .closed) : Reads s { s with pc := pc } where
  host := rfl
  accepted := rfl
  downloads := rfl
  output := rfl
  sent := rfl
  closed := rfl
  conserved := by rw [hcons]
  awaited := hawait
  unanswered := hun
  opened := hopened
  inLoop := hin
  notClosed := hnc
  before := hpc

/-- A step that reads into the buffer of the same item. -/
theorem Reads.into (hpc : s.pc ≠ .closed ∧ s.pc ≠ .update ∧ s.pc ≠ .notify) {pc : DownloadPc}
    {input : Fifo UInt8} (hsent : input.sent = s.input.sent)
    (hclosed : input.closed = s.input.closed)
    (hcons : consumed pc ++ input.pending = consumed s.pc ++ s.input.pending)
    (hawait : DownloadPc.awaited pc = DownloadPc.awaited s.pc)
    (hun : DownloadPc.unanswered pc = DownloadPc.unanswered s.pc)
    (hopened : DownloadPc.opened pc = DownloadPc.opened s.pc) (hin : InLoop pc)
    (hnc : pc ≠ .closed) : Reads s { s with pc := pc, input := input } where
  host := rfl
  accepted := rfl
  downloads := rfl
  output := rfl
  sent := hsent
  closed := hclosed
  conserved := hcons
  awaited := hawait
  unanswered := hun
  opened := hopened
  inLoop := hin
  notClosed := hnc
  before := hpc

/-- **What one step can do**, for a loop whose buffers are in bounds. -/
theorem move_of_step (h : InBounds s.pc) (hst : s.step contains downloadDir k = some t) :
    Move contains downloadDir k s t := by
  cases branch_of_step h hst with
  | short hf hread report ht =>
      obtain ⟨hlen, hclosed, hpending⟩ := readExactly_short hread
      subst ht
      exact .fail report (.ended hclosed hpending (hf.short hlen)) rfl rfl
  | more buf' hf hread ht =>
      obtain ⟨hcons, _, hsent, hclosed⟩ := readExactly_more hread
      obtain ⟨hawait, hun, hopened, hin, hnc⟩ := hf.frame_more buf'
      subst ht
      have hconsumed := hf.consumed_more hcons
      exact .read (.into hf.before hsent hclosed hconsumed hawait hun hopened hin hnc)
  | complete hf hread ht =>
      have hlen := readExactly_complete hread
      obtain ⟨hawait, hun, hopened, hin, hnc⟩ := hf.frame_next
      subst ht
      exact .read (.goto hf.before (hf.consumed_next hlen) hawait hun hopened hin hnc)
  | close hpc hread ht =>
      -- `read` returned `0` between two offers: the uploader has left its main loop
      obtain ⟨hclosed, hpending, _⟩ := readByte_none hread
      exact .close hpc hclosed hpending ht
  | invalidCount hashCount hpc hread hlarge ht =>
      obtain ⟨hpending, hsent, _⟩ := readByte_some hread
      subst ht
      exact .fail _ (.count hashCount _ hpc hpending hlarge) rfl hsent
  | count hashCount hpc hread hle ht =>
      obtain ⟨hpending, hsent, hclosed⟩ := readByte_some hread
      subst ht
      exact .read (.into (by simp [hpc]) hsent hclosed (by simp [consumed, hpc, hpending])
        (by simp [awaited, hpc]) (by simp [unanswered, hpc]) (by simp [opened, hpc]) trivial
        (by simp))
  | answer hashCount buf a hpc ha hsize ht => exact .answer hashCount buf a hpc ha ht
  | reply rest rest' missing hpc hwrite ht =>
      obtain ⟨hpending, _, hclosed, hrest⟩ := writeExactly_more hwrite
      subst ht
      exact .reply rest rest' missing hpc hrest rfl hpending hclosed
  | replied missing hpc ht =>
      subst ht
      exact .read (.goto (by simp [hpc]) (by simp [consumed, hpc]) (by simp [awaited, hpc])
        (by simp [unanswered, hpc]) (by simp [opened, hpc]) trivial (by simp))
  | noName hash missing hpc hread ht =>
      obtain ⟨hclosed, hpending, _⟩ := readByte_none hread
      subst ht
      exact .fail _ (.ended hclosed hpending (by simp [hpc, Short])) rfl rfl
  | name hash missing filenameLen hpc hread ht =>
      obtain ⟨hpending, hsent, hclosed⟩ := readByte_some hread
      subst ht
      exact .read (.into (by simp [hpc]) hsent hclosed (by simp [consumed, hpc, hpending])
        (by simp [awaited, hpc]) (by simp [unanswered, hpc]) (by simp [opened, hpc]) trivial
        (by simp))
  | done hpc ht =>
      subst ht
      exact .read (.goto (by simp [hpc]) (by simp [consumed, hpc]) (by simp [awaited, hpc])
        (by simp [unanswered, hpc]) (by simp [opened, hpc]) trivial (by simp))
  | create hash filename fileSize missing hpc ht =>
      exact .create hash filename fileSize missing hpc ht
  | store hash filename target file missing hpc ht =>
      exact .store hash filename target file missing hpc ht

end Reception
end Jpgsync
