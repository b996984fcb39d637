import Jpgsync.Upload
import Jpgsync.Offer.Agreement

/-!
# Upload — Moves

What one step of an upload round can do, said once, in the terms the
receive loop's `Moves` use for the other side: the bytes of the current
item still to be written (`unsent`), what of an unfinished item has been
begun (`started`), and the entries still to be sent (`todo`).
-/

namespace Jpgsync

/-- The cursor stands at an entry of an offer of `total`, with `left`
entries to go, in a bitmask of one bit per entry of the offer. -/
def MaskCursor.AtEntry (total : Nat) (c : MaskCursor) (left : Nat) : Prop :=
  ∃ i, i + left = total ∧ c = cursorAt c.foundBitmask i ∧
    c.foundBitmask.length = foundBitmaskSize total

theorem foundBitmaskSize_room (n : Nat) : n ≤ foundBitmaskSize n * charBit := by
  simp only [foundBitmaskSize, charBit]
  omega

namespace MaskCursor

variable {total left : Nat} {c : MaskCursor}

theorem atEntry_start {buf : Bytes} (h : buf.length = foundBitmaskSize total) :
    AtEntry total (start buf) total :=
  ⟨0, Nat.zero_add _, rfl, h⟩

theorem AtEntry.next (h : AtEntry total c (left + 1)) : AtEntry total c.next left := by
  obtain ⟨i, hi, hc, hlen⟩ := h
  refine ⟨i + 1, by omega, ?_, hlen⟩
  rw [hc, next_cursorAt]
  rfl

/-- The byte the cursor points to is in the bitmask. -/
theorem AtEntry.inMask (h : AtEntry total c (left + 1)) :
    c.found < foundBitmaskSize total ∧ c.foundBitmask.length = foundBitmaskSize total ∧
      c.wants.isSome := by
  obtain ⟨i, hi, hc, hlen⟩ := h
  have hroom := foundBitmaskSize_room total
  have hlt : i < c.foundBitmask.length * charBit := by
    rw [hlen]
    omega
  refine ⟨?_, hlen, ?_⟩
  · rw [hc, ← hlen]
    exact Nat.div_lt_of_lt_mul (by rwa [Nat.mul_comm])
  · rw [hc, wants_cursorAt hlt]
    rfl

end MaskCursor

namespace UploadPc

/-- **The buffers are within their bounds**, in a round of `total`
entries. -/
def InBounds (total : Nat) : UploadPc → Prop
  | .offer _ missing => missing.length = total ∧ total ≤ syncHashesPerPacket
  | .mask buf missing =>
    missing.length = total ∧ total ≤ syncHashesPerPacket ∧ buf.length ≤ foundBitmaskSize total
  | .entry cursor missing => cursor.AtEntry total missing.length
  | .name _ l | .openFile l | .size _ _ l | .read _ l | .payload _ l =>
    l.cursor.AtEntry total (l.rest.length + 1)
  | .overrun => False
  | .wait | .lockUpdated | .setUpdated | .main | .closed => True

/-- Inside a round, from the offer to the last file. -/
def InRound : UploadPc → Prop
  | .offer _ _ | .mask _ _ | .entry _ _ | .name _ _ | .openFile _ | .size _ _ _ | .read _ _
  | .payload _ _ => True
  | .wait | .lockUpdated | .setUpdated | .main | .closed | .overrun => False

/-- The bytes of the current write that are still to be written. -/
def unsent : UploadPc → Bytes
  | .offer rest _ | .name rest _ | .size rest _ _ | .payload rest _ => rest
  | _ => []

/-- The bytes of an item that is begun but not complete; an offer is
complete when it is answered, a file when its contents are written. -/
def started : UploadPc → Bytes
  | .offer _ missing | .mask _ missing => offerBytes missing
  | .name _ l | .openFile l => nameBytes l.entry.path
  | .size _ fileSize l | .read fileSize l => nameBytes l.entry.path ++ writeFileSize fileSize
  | _ => []

/-- The entries of the round whose contents are still to be written. -/
def todo : UploadPc → Option (List Entry)
  | .entry cursor missing => uploadLoop cursor missing
  | .name _ l | .openFile l | .size _ _ l | .read _ l =>
    (uploadLoop l.cursor.next l.rest).map (l.entry :: ·)
  | .payload _ l => uploadLoop l.cursor.next l.rest
  | _ => some []

/-- The entries of an offer whose answer has not been read. -/
def asking : UploadPc → List Entry
  | .offer _ missing | .mask _ missing => missing
  | _ => []

/-- The size that is announced for the current file. -/
def announced : UploadPc → Option Nat
  | .size _ fileSize _ | .read fileSize _ => some fileSize
  | _ => none

/-- What has been read of the answer. -/
def answered : UploadPc → Bytes
  | .mask buf _ => buf
  | _ => []

/-- If a file is about to be opened, its size fits in four bytes. -/
def SizeFits (disk : Disk) : UploadPc → Prop
  | .openFile l => ∀ contents ∈ disk.reopenEndIn l.entry.path, contents.length < 2 ^ 32
  | .wait | .lockUpdated | .setUpdated | .main | .offer _ _ | .mask _ _ | .entry _ _ | .name _ _
  | .size _ _ _ | .read _ _ | .payload _ _ | .closed | .overrun => True

instance (disk : Disk) : DecidablePred (SizeFits disk)
  | .openFile l => inferInstanceAs (Decidable
      (∀ contents ∈ disk.reopenEndIn l.entry.path, contents.length < 2 ^ 32))
  | .wait | .lockUpdated | .setUpdated | .main | .offer _ _ | .mask _ _ | .entry _ _ | .name _ _
  | .size _ _ _ | .read _ _ | .payload _ _ | .closed | .overrun => isTrue trivial

end UploadPc

namespace Emission

open UploadPc

variable {total k : Nat} {s t : Emission}

/-- A step that at most writes. -/
structure Writes (s t : Emission) : Prop where
  host : t.host = s.host
  uploads : t.uploads = s.uploads
  input : t.input = s.input
  closed : t.output.closed = s.output.closed
  pending : t.output.pending ++ unsent t.pc = s.output.pending ++ unsent s.pc
  sent : t.output.sent ++ unsent t.pc = s.output.sent ++ unsent s.pc
  started : started t.pc = started s.pc
  todo : todo t.pc = todo s.pc
  asking : asking t.pc = asking s.pc
  answered : answered t.pc = answered s.pc
  announced : announced t.pc = announced s.pc
  inRound : InRound t.pc
  before : InRound s.pc

/-- Why a round calls `Fatal`. -/
inductive Broken (s : Emission) : Prop
  | ended (buf : Bytes) (missing : List Entry) (hpc : s.pc = .mask buf missing)
      (hclosed : s.input.closed = true) (hpending : s.input.pending = [])
      (hshort : buf.length ≠ foundBitmaskSize missing.length)
  | notOpened (l : FileLoop) (hpc : s.pc = .openFile l)
      (hopen : s.host.disk.reopenEndIn l.entry.path = none)

/-- **What one step can do.** -/
inductive Move (k : Nat) (s t : Emission) : Prop
  | write (h : Writes s t)
  | readMask (buf buf' : Bytes) (missing : List Entry) (hpc : s.pc = .mask buf missing)
      (ht : t = { s with pc := .mask buf' missing, input := t.input })
      (hconserved : buf' ++ t.input.pending = buf ++ s.input.pending)
      (hclosed : t.input.closed = s.input.closed)
  | decode (buf : Bytes) (missing : List Entry) (hpc : s.pc = .mask buf missing)
      (hlen : buf.length = foundBitmaskSize missing.length)
      (ht : t = { s with pc := .entry (.start buf) missing })
  | begin (cursor : MaskCursor) (e : Entry) (rest : List Entry)
      (hpc : s.pc = .entry cursor (e :: rest)) (hwants : cursor.wants = some true)
      (ht : t = { s with pc := .name (nameBytes e.path) ⟨cursor, e, rest⟩ })
  | skip (cursor : MaskCursor) (e : Entry) (rest : List Entry)
      (hpc : s.pc = .entry cursor (e :: rest)) (hwants : cursor.wants = some false)
      (ht : t = { s with pc := .entry cursor.next rest })
  | openFile (l : FileLoop) (contents : Bytes) (hpc : s.pc = .openFile l)
      (hopen : s.host.disk.reopenEndIn l.entry.path = some contents)
      (ht : t = { s with pc := .size (writeFileSize contents.length) contents.length l })
  | read (fileSize : Nat) (l : FileLoop) (hpc : s.pc = .read fileSize l)
      (contents : Bytes) (hcontents : contents = (s.host.disk.contents l.entry.path).getD [])
      (ht : t = { s with
        uploads := s.uploads ++ [(l.entry, readBuffer contents fileSize k)]
        pc := .payload (readBuffer contents fileSize k) l })
  | fail (report : Report) (hbroken : Broken s) (ht : t = s.fatal report)

/-- A point at which `WriteExactly` writes: the bytes it has left, the point
with other bytes left, and the one behind the call. -/
inductive Writing : UploadPc → Bytes → (Bytes → UploadPc) → UploadPc → Prop
  | offer (rest : Bytes) (missing : List Entry) :
    Writing (.offer rest missing) rest (.offer · missing) (.mask [] missing)
  | name (rest : Bytes) (l : FileLoop) : Writing (.name rest l) rest (.name · l) (.openFile l)
  | size (rest : Bytes) (fileSize : Nat) (l : FileLoop) :
    Writing (.size rest fileSize l) rest (.size · fileSize l) (.read fileSize l)
  | payload (rest : Bytes) (l : FileLoop) :
    Writing (.payload rest l) rest (.payload · l) (.entry l.cursor.next l.rest)

namespace Writing

variable {pc next : UploadPc} {rest : Bytes} {more : Bytes → UploadPc}

theorem eq_more (hw : Writing pc rest more next) : pc = more rest := by
  cases hw <;> rfl

theorem unsent_eq (hw : Writing pc rest more next) :
    (∀ bytes, unsent (more bytes) = bytes) ∧ unsent next = [] := by
  cases hw <;> exact ⟨fun _ => rfl, rfl⟩

/-- Nothing else of the item depends on how much is written. -/
theorem frame (hw : Writing pc rest more next) (bytes : Bytes) :
    UploadPc.started (more bytes) = UploadPc.started next ∧
      UploadPc.todo (more bytes) = UploadPc.todo next ∧
      UploadPc.asking (more bytes) = UploadPc.asking next ∧
      UploadPc.answered (more bytes) = UploadPc.answered next ∧
      UploadPc.announced (more bytes) = UploadPc.announced next ∧ InRound (more bytes) := by
  cases hw <;> exact ⟨rfl, rfl, rfl, rfl, rfl, trivial⟩

theorem inRound_next (hw : Writing pc rest more next) : InRound next := by
  cases hw <;> trivial

theorem inBounds (hw : Writing pc rest more next) (h : InBounds total pc) :
    (∀ bytes, InBounds total (more bytes)) ∧ InBounds total next := by
  cases hw with
  | offer rest missing => exact ⟨fun _ => h, h.1, h.2, Nat.zero_le _⟩
  | name rest l => exact ⟨fun _ => h, h⟩
  | size rest fileSize l => exact ⟨fun _ => h, h⟩
  | payload rest l => exact ⟨fun _ => h, MaskCursor.AtEntry.next h⟩

end Writing

/-- The branches of one step, of a round whose buffers are in bounds. -/
inductive Branch (k : Nat) (s t : Emission) : Prop
  | write {rest : Bytes} {more : Bytes → UploadPc} {next : UploadPc}
      (hw : Writing s.pc rest more next) (hst : s.write rest k next more = some t)
  | short (buf : Bytes) (missing : List Entry) (hpc : s.pc = .mask buf missing)
      (hread : readExactly s.input (foundBitmaskSize missing.length) buf k = some .short)
      (ht : t = s.fatal .noConfirmation)
  | readMask (buf buf' : Bytes) (missing : List Entry) {input : Fifo UInt8}
      (hpc : s.pc = .mask buf missing)
      (hread : readExactly s.input (foundBitmaskSize missing.length) buf k =
        some (.more buf' input))
      (ht : t = { s with pc := .mask buf' missing, input := input })
  | decode (buf : Bytes) (missing : List Entry) (hpc : s.pc = .mask buf missing)
      (hlen : buf.length = foundBitmaskSize missing.length)
      (ht : t = { s with pc := .entry (.start buf) missing })
  | begin (cursor : MaskCursor) (e : Entry) (rest : List Entry)
      (hpc : s.pc = .entry cursor (e :: rest)) (hwants : cursor.wants = some true)
      (ht : t = { s with pc := .name (nameBytes e.path) ⟨cursor, e, rest⟩ })
  | skip (cursor : MaskCursor) (e : Entry) (rest : List Entry)
      (hpc : s.pc = .entry cursor (e :: rest)) (hwants : cursor.wants = some false)
      (ht : t = { s with pc := .entry cursor.next rest })
  | notOpened (l : FileLoop) (hpc : s.pc = .openFile l)
      (hopen : s.host.disk.reopenEndIn l.entry.path = none)
      (ht : t = s.fatal (.notOpened l.entry.hash l.entry.path))
  | openFile (l : FileLoop) (contents : Bytes) (hpc : s.pc = .openFile l)
      (hopen : s.host.disk.reopenEndIn l.entry.path = some contents)
      (ht : t = { s with pc := .size (writeFileSize contents.length) contents.length l })
  | read (fileSize : Nat) (l : FileLoop) (hpc : s.pc = .read fileSize l)
      (contents : Bytes) (hcontents : contents = (s.host.disk.contents l.entry.path).getD [])
      (ht : t = { s with
        uploads := s.uploads ++ [(l.entry, readBuffer contents fileSize k)]
        pc := .payload (readBuffer contents fileSize k) l })

theorem branch_of_step (h : InBounds total s.pc) (hst : s.step k = some t) : Branch k s t := by
  cases hpc : s.pc with
  | wait | lockUpdated | setUpdated | main | closed | overrun => simp [step, hpc] at hst
  | offer rest missing =>
      simp only [step, hpc] at hst
      exact .write (by rw [hpc]; exact .offer rest missing) hst
  | mask buf missing =>
      rw [hpc] at h
      have hsize : foundBitmaskSize missing.length ≤ sizeofFoundBitmask := by
        rw [h.1]
        exact foundBitmaskSize_mono h.2.1
      simp only [step, hpc, if_neg (Nat.not_lt.mpr hsize)] at hst
      split at hst
      next => cases hst
      next hread => cases hst; exact .short buf missing hpc hread rfl
      next buf' input hread => cases hst; exact .readMask buf buf' missing hpc hread rfl
      next hread => cases hst; exact .decode buf missing hpc (readExactly_complete hread) rfl
  | entry cursor missing =>
      cases missing with
      | nil => simp [step, hpc] at hst
      | cons e rest =>
          rw [hpc] at h
          -- one bit per missing entry, so the cursor is inside the bitmask
          have hsome := (MaskCursor.AtEntry.inMask h).2.2
          simp only [step, hpc] at hst
          split at hst
          next hwants => rw [hwants] at hsome; cases hsome
          next hwants => cases hst; exact .begin cursor e rest hpc hwants rfl
          next hwants => cases hst; exact .skip cursor e rest hpc hwants rfl
  | name rest l =>
      simp only [step, hpc] at hst
      exact .write (by rw [hpc]; exact .name rest l) hst
  | openFile l =>
      simp only [step, hpc] at hst
      split at hst
      next hopen => cases hst; exact .notOpened l hpc hopen rfl
      next contents hopen => cases hst; exact .openFile l contents hpc hopen rfl
  | size rest fileSize l =>
      simp only [step, hpc] at hst
      exact .write (by rw [hpc]; exact .size rest fileSize l) hst
  | read fileSize l =>
      simp only [step, hpc] at hst
      cases hst
      exact .read fileSize l hpc _ rfl rfl
  | payload rest l =>
      simp only [step, hpc] at hst
      exact .write (by rw [hpc]; exact .payload rest l) hst

/-- `write` either wrote some bytes or had written all of them. -/
theorem writes_of_write {rest : Bytes} {next : UploadPc} {more : Bytes → UploadPc}
    (hw : Writing s.pc rest more next) (hst : s.write rest k next more = some t) :
    Writes s t := by
  obtain ⟨hmore, hnext⟩ := hw.unsent_eq
  obtain ⟨hstarted, htodo, hasking, hanswered, hannounced, hbefore⟩ := hw.frame rest
  have hpc := hw.eq_more
  unfold write at hst
  split at hst
  next => cases hst
  next hdone =>
    have hrest := writeExactly_complete hdone
    cases hst
    exact ⟨rfl, rfl, rfl, rfl, by simp [hnext, hpc, hmore, hrest],
      by simp [hnext, hpc, hmore, hrest], by rw [hpc, hstarted], by rw [hpc, htodo],
      by rw [hpc, hasking], by rw [hpc, hanswered], by rw [hpc, hannounced], hw.inRound_next,
      by rw [hpc]; exact hbefore⟩
  next rest' output hmove =>
    obtain ⟨hpending, hsent, hclosed, _⟩ := writeExactly_more hmove
    obtain ⟨hstarted', htodo', hasking', hanswered', hannounced', hround⟩ := hw.frame rest'
    cases hst
    exact ⟨rfl, rfl, rfl, hclosed, by simpa [hpc, hmore] using hpending,
      by simpa [hpc, hmore] using hsent, by rw [hpc, hstarted, hstarted'],
      by rw [hpc, htodo, htodo'], by rw [hpc, hasking, hasking'],
      by rw [hpc, hanswered, hanswered'], by rw [hpc, hannounced, hannounced'], hround,
      by rw [hpc]; exact hbefore⟩

/-- **What one step can do**, for a round whose buffers are in bounds. -/
theorem move_of_step (h : InBounds total s.pc) (hst : s.step k = some t) : Move k s t := by
  cases branch_of_step h hst with
  | write hw hst => exact .write (writes_of_write hw hst)
  | short buf missing hpc hread ht =>
      obtain ⟨hlen, hclosed, hpending⟩ := readExactly_short hread
      exact .fail _ (.ended buf missing hpc hclosed hpending hlen) ht
  | readMask buf buf' missing hpc hread ht =>
      obtain ⟨hcons, _, _, hclosed⟩ := readExactly_more hread
      subst ht
      exact .readMask buf buf' missing hpc rfl hcons hclosed
  | decode buf missing hpc hlen ht => exact .decode buf missing hpc hlen ht
  | begin cursor e rest hpc hwants ht => exact .begin cursor e rest hpc hwants ht
  | skip cursor e rest hpc hwants ht => exact .skip cursor e rest hpc hwants ht
  | notOpened l hpc hopen ht => exact .fail _ (.notOpened l hpc hopen) ht
  | openFile l contents hpc hopen ht => exact .openFile l contents hpc hopen ht
  | read fileSize l hpc contents hcontents ht =>
      exact .read fileSize l hpc contents hcontents ht

theorem pc_of_write {rest : Bytes} {next : UploadPc} {more : Bytes → UploadPc}
    (hst : s.write rest k next more = some t) : t.pc = next ∨ ∃ bytes, t.pc = more bytes := by
  unfold write at hst
  split at hst
  next => cases hst
  next => cases hst; exact Or.inl rfl
  next rest' output _ => cases hst; exact Or.inr ⟨rest', rfl⟩

/-- **The buffers stay within their bounds**, whatever is answered. -/
theorem inBounds_step (h : InBounds total s.pc) (hst : s.step k = some t) :
    InBounds total t.pc := by
  cases branch_of_step h hst with
  | write hw hst =>
      rcases pc_of_write hst with ht | ⟨bytes, ht⟩ <;> rw [ht]
      · exact (hw.inBounds h).2
      · exact (hw.inBounds h).1 bytes
  | short buf missing hpc hread ht | notOpened l hpc hopen ht => rw [ht]; exact h
  | readMask buf buf' missing hpc hread ht =>
      rw [hpc] at h
      rw [ht]
      exact ⟨h.1, h.2.1, by rw [← h.1]; exact (readExactly_more hread).2.1⟩
  | decode buf missing hpc hlen ht =>
      rw [hpc] at h
      rw [h.1] at hlen
      rw [ht]
      show MaskCursor.AtEntry total (.start buf) missing.length
      rw [h.1]
      exact MaskCursor.atEntry_start hlen
  | skip cursor e rest hpc hwants ht =>
      rw [hpc] at h
      rw [ht]
      exact MaskCursor.AtEntry.next h
  | begin cursor e rest hpc hwants ht | openFile l contents hpc hopen ht
  | read fileSize l hpc contents hcontents ht =>
      rw [hpc] at h
      rw [ht]
      exact h

end Emission
end Jpgsync
