import Jpgsync.Download.Moves

/-!
# Download — Progress

The receive loop comes to an end on every finite stream. A step either
consumes bytes, of which there are finitely many, or brings the current
item forward (`work_step`); and once the stream is closed there is always a
next step, unless the loop has ended (`step_enabled`).
-/

namespace Jpgsync

/-- The steps of the current item that consume nothing, at most. -/
def DownloadPc.weight : DownloadPc → Nat
  | .update | .notify | .closed | .overrun => 0
  | .count => 1
  | .file _ => 2
  | .store _ _ _ _ _ => 3
  | .payload _ _ _ _ _ _ => 4
  | .create _ _ _ _ => 5
  | .size _ _ _ _ => 6
  | .name _ _ _ _ => 7
  | .mask rest _ => 3 + rest.length
  | .answer _ _ => 4 + sizeofFoundBitmask
  | .offer _ _ => 5 + sizeofFoundBitmask

/-- What the consumption of one byte pays for: the first byte of an offer
and of a file leads to the heaviest point of its item. -/
def bytePrice : Nat := 6 + sizeofFoundBitmask

/-- The steps the loop has left, at most, with `unread` bytes to come. -/
def DownloadPc.work (unread : Nat) (pc : DownloadPc) : Nat := unread * bytePrice + pc.weight

namespace Reception.Filling

variable {pc next : DownloadPc} {count : Nat} {buf : Bytes} {more : Bytes → DownloadPc}

theorem weight_more (hf : Filling pc count buf more next) (buf' : Bytes) :
    (more buf').weight = pc.weight := by
  cases hf <;> rfl

theorem weight_next (hf : Filling pc count buf more next) : next.weight < pc.weight := by
  cases hf <;> exact Nat.lt_succ_self _

end Reception.Filling

namespace Reception

open DownloadPc

variable {contains : ExifHash → Bool} {downloadDir : Bytes} {k : Nat} {s t : Reception}

/-- What reading into the buffer of the same item brings. -/
theorem work_more {count : Nat} {buf buf' : Bytes} {input : Fifo UInt8} {pc pc' : DownloadPc}
    (hread : readExactly s.input count buf k = some (.more buf' input))
    (hweight : pc'.weight = pc.weight) (more : Nat) :
    work (input.pending.length + more) pc' < work (s.input.pending.length + more) pc := by
  have hcons := congrArg List.length (readExactly_more hread).1
  have hgrow := length_readExactly hread
  simp only [List.length_append] at hcons
  have hlt : (input.pending.length + more) * bytePrice <
      (s.input.pending.length + more) * bytePrice :=
    Nat.mul_lt_mul_of_pos_right (by omega) (by decide)
  rw [work, work, hweight]
  omega

/-- What reading the first byte of an item brings. -/
theorem work_byte {byte : UInt8} {input : Fifo UInt8} {pc pc' : DownloadPc}
    (hread : readByte s.input = some (some byte, input))
    (hweight : pc'.weight < pc.weight + bytePrice) (more : Nat) :
    work (input.pending.length + more) pc' < work (s.input.pending.length + more) pc := by
  have hpending := congrArg List.length (readByte_some hread).1
  rw [List.length_cons] at hpending
  have hunread : s.input.pending.length + more = input.pending.length + more + 1 := by omega
  rw [work, work, hunread, Nat.succ_mul]
  omega

/-- A step that stays where it is in the stream brings the item forward. -/
theorem work_goto {pc pc' : DownloadPc} (hweight : pc'.weight < pc.weight) (unread : Nat) :
    work unread pc' < work unread pc :=
  Nat.add_lt_add_left hweight _

/-- **Every step is progress**, unless it calls `Fatal`. -/
theorem work_step (h : InBounds s.pc) (hst : s.step contains downloadDir k = some t)
    (more : Nat) : t.host.logger.terminated = true ∨
      work (t.input.pending.length + more) t.pc < work (s.input.pending.length + more) s.pc := by
  -- a step at `s.pc` that reads nothing, and whose next point is lighter
  have lighter : ∀ {pc : DownloadPc} (unread : Nat), pc.weight < s.pc.weight →
      work unread pc < work unread s.pc := fun unread hweight => work_goto hweight unread
  cases branch_of_step h hst with
  | short hf hread report ht | invalidCount hashCount hpc hread hlarge ht
  | noName hash missing hpc hread ht => subst ht; exact Or.inl rfl
  | more buf' hf hread ht => subst ht; exact Or.inr (work_more hread (hf.weight_more buf') more)
  | complete hf hread ht => subst ht; exact Or.inr (lighter _ hf.weight_next)
  | close hpc hread ht =>
      subst ht
      exact Or.inr (lighter _ (by rw [hpc]; exact Nat.one_pos))
  | count hashCount hpc hread hle ht =>
      subst ht
      refine Or.inr (work_byte hread ?_ more)
      rw [hpc]
      simp only [weight, bytePrice]
      omega
  | answer hashCount buf a hpc ha hsize ht =>
      subst ht
      refine Or.inr (lighter _ ?_)
      rw [hpc]
      simp only [weight, List.length_take]
      omega
  | reply rest rest' missing hpc hwrite ht =>
      have hlt := length_writeExactly hwrite
      subst ht
      refine Or.inr (lighter _ ?_)
      rw [hpc]
      simp only [weight]
      omega
  | replied missing hpc ht =>
      subst ht
      exact Or.inr (lighter _ (by rw [hpc]; exact Nat.lt_succ_self _))
  | name hash missing filenameLen hpc hread ht =>
      subst ht
      refine Or.inr (work_byte hread ?_ more)
      rw [hpc]
      simp only [weight, bytePrice]
      omega
  | done hpc ht | create hash filename fileSize missing hpc ht
  | store hash filename target file missing hpc ht =>
      subst ht
      exact Or.inr (lighter _ (by rw [hpc]; exact Nat.lt_succ_self _))

/-- **When the receive loop moves**: on a closed stream always, on an open
one wherever the bytes it needs are pending. -/
theorem step_enabled (h : InBounds s.pc) (hin : InLoop s.pc) (hpc : s.pc ≠ .closed)
    (hready : s.input.closed = true ∨
      s.pc ≠ .count ∧ (Short s.pc → s.input.pending ≠ [])) :
    (s.step contains downloadDir 1).isSome := by
  have hread : ∀ {count : Nat} {buf : Bytes}, buf.length ≤ count →
      (buf.length ≠ count → Short s.pc) → ∃ r, readExactly s.input count buf 1 = some r :=
    fun hbuf hshort => Option.isSome_iff_exists.mp (readExactly_isSome hbuf
      (hready.imp_right fun hr hlen => hr.2 (hshort hlen)))
  unfold step
  cases hs : s.pc with
  | update => rw [hs] at hin; exact hin.elim
  | notify => rw [hs] at hin; exact hin.elim
  | closed => exact absurd hs hpc
  | overrun => rw [hs] at h; exact h.elim
  | count =>
      obtain ⟨⟨byte, input⟩, hbyte⟩ := Option.isSome_iff_exists.mp
        (readByte_isSome (hready.imp_right fun hr => absurd hs hr.1))
      cases byte with
      | none => simp [hbyte]
      | some hashCount =>
          simp only [hbyte]
          split <;> rfl
  | offer hashCount buf =>
      rw [hs] at h
      obtain ⟨r, hr⟩ := hread h.2 (by simp [hs, Short])
      dsimp only
      split
      · rfl
      · cases r <;> simp [hr]
  | answer hashCount buf =>
      rw [hs] at h
      have hsize : foundBitmaskSize hashCount.toNat ≤ sizeofFoundBitmask :=
        foundBitmaskSize_mono h.1
      obtain ⟨a, ha, _⟩ := answerOffer_isSome contains h hsize
      simp only [ha]
      split <;> rfl
  | mask rest missing =>
      obtain ⟨r, hr⟩ := Option.isSome_iff_exists.mp
        (@writeExactly_isSome s.output rest)
      cases r <;> simp [hr]
  | file missing =>
      cases missing with
      | nil => rfl
      | cons hash missing =>
          obtain ⟨⟨byte, input⟩, hbyte⟩ := Option.isSome_iff_exists.mp
            (readByte_isSome (hready.imp_right fun hr => hr.2 (by simp [hs, Short])))
          cases byte <;> simp [hbyte]
  | name hash filenameLen filename missing =>
      rw [hs] at h
      obtain ⟨r, hr⟩ := hread h (by simp [hs, Short])
      dsimp only
      split
      · rfl
      · cases r <;> simp [hr]
  | size hash filename buf missing =>
      rw [hs] at h
      obtain ⟨r, hr⟩ := hread h.2 (by simp [hs, Short])
      cases r <;> simp [hr]
  | create hash filename fileSize missing => rfl
  | payload hash filename fileSize target file missing =>
      rw [hs] at h
      obtain ⟨r, hr⟩ := hread h.2.1 (by simp [hs, Short])
      cases r <;> simp [hr]
  | store hash filename target file missing => rfl

end Reception
end Jpgsync
