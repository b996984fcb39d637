import Jpgsync.Update

/-!
# Update — Bounds

The update receiver in any environment: its buffer is within bounds
whatever arrives, and it changes `received_hashes` only while it holds
`updated_mutex` and `updated` is not set.
-/

namespace Jpgsync
namespace Receiving

/-- **The update buffer is within its bounds**, and what is about to be
unpacked consists of whole digests. -/
def InBounds (size : Nat) (s : Receiving) : Prop :=
  match s.pc with
  | .read buf => buf.length ≤ size
  | .lock buf | .insert buf =>
    ∃ n, 0 < n ∧ buf.length = n * sizeofExifHash ∧ buf.length ≤ size
  | .stopped => True
  | .overrun => False

theorem inBounds_received {size : Nat} {s : Receiving} {buf : Bytes} (h : buf.length ≤ size) :
    InBounds size (s.received buf) := by
  unfold InBounds received
  by_cases hz : buf.length = 0
  · simp [hz]
  · by_cases hmod : buf.length % sizeofExifHash = 0
    · simp only [if_neg hz, hmod, ne_eq, not_true_eq_false, if_false]
      refine ⟨buf.length / sizeofExifHash, ?_, ?_, h⟩
      · simp only [sizeofExifHash] at hmod ⊢
        omega
      · simp only [sizeofExifHash] at hmod ⊢
        omega
    · simp only [if_neg hz, ne_eq, hmod, not_false_eq_true, if_true]
      exact Nat.zero_le _

variable {protocol : UpdateProtocol} {updates : List Bytes} {closed : Bool} {k : Nat}
  {s t : Receiving}

/-- **The update buffer stays within its bounds**, whatever arrives. -/
theorem inBounds_step (h : InBounds (protocol.hashesPerPacket * sizeofExifHash) s)
    (hst : s.step protocol updates closed k = some t) :
    InBounds (protocol.hashesPerPacket * sizeofExifHash) t := by
  unfold step at hst
  dsimp only at hst
  split at hst
  next buf hpc =>
    unfold InBounds at h
    rw [hpc] at h
    split at hst
    next =>
      obtain ⟨packet, _, rfl⟩ := Option.map_eq_some_iff.mp hst
      exact inBounds_received (List.length_take_le _ _)
    next =>
      split at hst
      next hk =>
        have hlen : (buf ++ (updates.flatten.drop s.taken).take k).length ≤
            UpdateProtocol.stream.hashesPerPacket * sizeofExifHash := by
          rw [List.length_append, List.length_take]
          omega
        simp only [Option.some.injEq] at hst
        subst hst
        split
        · exact inBounds_received hlen
        · exact hlen
      next =>
        split at hst <;> cases hst
        exact inBounds_received h
  next buf hpc =>
    unfold InBounds at h
    rw [hpc] at h
    split at hst <;> cases hst
    exact h
  next buf hpc =>
    unfold InBounds at h
    rw [hpc] at h
    obtain ⟨n, hn, hlen, _⟩ := h
    obtain ⟨r, hr, _⟩ := insertUpdate_spec buf n s.receivedHashes hn (Nat.le_of_eq hlen.symm)
    rw [← hlen] at hr
    rw [hr] at hst
    split at hst
    · cases hst
      trivial
    · cases hst
      exact Nat.zero_le _
  next => cases hst
  next => cases hst

theorem inBounds_endOfUpdate {size : Nat} (hst : s.endOfUpdate protocol closed = some t) :
    InBounds size t := by
  unfold endOfUpdate at hst
  split at hst
  · split at hst <;> cases hst
    exact inBounds_received (Nat.zero_le _)
  · cases hst

/-- What a step of the update receiver does to the variables it shares with
the uploader: it takes the free mutex, and holding it gives it back, the
hashes changed only if `updated` is not set. -/
theorem step_shared (h : InBounds (protocol.hashesPerPacket * sizeofExifHash) s)
    (hst : s.step protocol updates closed k = some t) :
    t.updated = s.updated ∧
      ((t.receivedHashes = s.receivedHashes ∧ t.updatedMutex = s.updatedMutex ∧
          (∀ buf, t.pc ≠ .insert buf) ∧ ∀ buf, s.pc ≠ .insert buf) ∨
        (s.updatedMutex = none ∧ t.updatedMutex = some .receiver ∧
          t.receivedHashes = s.receivedHashes ∧ (∃ buf, t.pc = .insert buf) ∧
          ∀ buf, s.pc ≠ .insert buf) ∨
        ((∃ buf, s.pc = .insert buf) ∧ t.updatedMutex = none ∧ (∀ buf, t.pc ≠ .insert buf) ∧
          (s.updated = true → t.receivedHashes = s.receivedHashes))) := by
  -- handing over a read touches the control point only
  have hreceived : ∀ (u : Receiving) (buf : Bytes), (u.received buf).updated = u.updated ∧
      (u.received buf).receivedHashes = u.receivedHashes ∧
      (u.received buf).updatedMutex = u.updatedMutex ∧
      ∀ b, (u.received buf).pc ≠ .insert b := by
    intro u buf
    refine ⟨rfl, rfl, rfl, fun b => ?_⟩
    simp only [received]
    split
    · simp
    · split <;> simp
  unfold step at hst
  dsimp only at hst
  split at hst
  next buf hpc =>
    split at hst
    next =>
      obtain ⟨packet, _, rfl⟩ := Option.map_eq_some_iff.mp hst
      obtain ⟨hu, hr, hm, hi⟩ := hreceived s
        (packet.take (UpdateProtocol.dccp.hashesPerPacket * sizeofExifHash))
      exact ⟨hu, Or.inl ⟨hr, hm, hi, by simp [hpc]⟩⟩
    next =>
      split at hst
      next =>
        simp only [Option.some.injEq] at hst
        subst hst
        split
        · obtain ⟨hu, hr, hm, hi⟩ := hreceived { s with taken := s.taken + k }
            (buf ++ (updates.flatten.drop s.taken).take k)
          exact ⟨hu, Or.inl ⟨hr, hm, hi, by simp [hpc]⟩⟩
        · exact ⟨rfl, Or.inl ⟨rfl, rfl, by simp, by simp [hpc]⟩⟩
      next =>
        split at hst <;> cases hst
        obtain ⟨hu, hr, hm, hi⟩ := hreceived s buf
        exact ⟨hu, Or.inl ⟨hr, hm, hi, by simp [hpc]⟩⟩
  next buf hpc =>
    split at hst <;> cases hst
    rename_i hfree
    exact ⟨rfl, Or.inr (Or.inl ⟨hfree, rfl, rfl, ⟨buf, rfl⟩, by simp [hpc]⟩)⟩
  next buf hpc =>
    unfold InBounds at h
    rw [hpc] at h
    obtain ⟨n, hn, hlen, _⟩ := h
    obtain ⟨r, hr, _⟩ := insertUpdate_spec buf n s.receivedHashes hn (Nat.le_of_eq hlen.symm)
    rw [← hlen] at hr
    rw [hr] at hst
    split at hst
    · cases hst
      exact ⟨rfl, Or.inr (Or.inr ⟨⟨buf, hpc⟩, rfl, by simp, fun _ => rfl⟩)⟩
    · rename_i hup
      cases hst
      exact ⟨rfl, Or.inr (Or.inr ⟨⟨buf, hpc⟩, rfl, by simp, fun h => absurd h hup⟩)⟩
  next => cases hst
  next => cases hst

/-! ## What is heard -/

/-- Every packet, every buffered packet and every received hash is about
hashes with the property `P`. -/
structure Hears (P : ExifHash → Prop) (updates : List Bytes) (size : Nat) (s : Receiving) :
    Prop where
  packets : ∀ packet ∈ updates, ∃ hs, hs ≠ [] ∧ packet = ExifHash.digests hs ∧
    packet.length ≤ size ∧ ∀ h ∈ hs, P h
  buffered : ∀ buf, s.pc = .lock buf ∨ s.pc = .insert buf →
    ∃ hs, hs ≠ [] ∧ buf = ExifHash.digests hs ∧ ∀ h ∈ hs, P h
  received : ∀ h ∈ s.receivedHashes, P h

theorem Hears.mono {P Q : ExifHash → Prop} {size : Nat} (h : Hears P updates size s)
    (hPQ : ∀ x, P x → Q x) : Hears Q updates size s := by
  refine ⟨fun packet hp => ?_, fun buf hb => ?_, fun x hx => hPQ x (h.received x hx)⟩
  · obtain ⟨hs, hne, heq, hlen, hP⟩ := h.packets packet hp
    exact ⟨hs, hne, heq, hlen, fun x hx => hPQ x (hP x hx)⟩
  · obtain ⟨hs, hne, heq, hP⟩ := h.buffered buf hb
    exact ⟨hs, hne, heq, fun x hx => hPQ x (hP x hx)⟩

/-- **One packet per read**: what is heard stays about hashes with the
property, whichever packet is read. -/
theorem Hears.step {P : ExifHash → Prop}
    (h : Hears P updates (UpdateProtocol.dccp.hashesPerPacket * sizeofExifHash) s)
    (hst : s.step .dccp updates closed k = some t) :
    Hears P updates (UpdateProtocol.dccp.hashesPerPacket * sizeofExifHash) t := by
  unfold Receiving.step at hst
  dsimp only at hst
  split at hst
  next buf hpc =>
    obtain ⟨packet, hk, rfl⟩ := Option.map_eq_some_iff.mp hst
    obtain ⟨hs, hne, heq, hlen, hP⟩ := h.packets packet (List.mem_of_getElem? hk)
    refine ⟨h.packets, fun buf' hb => ?_, h.received⟩
    -- a packet is no longer than the buffer, so none is cut
    rw [List.take_of_length_le hlen] at hb
    simp only [Receiving.received] at hb
    split at hb
    · simp at hb
    · split at hb
      · simp at hb
      · simp only [ReceivePc.lock.injEq, reduceCtorEq, or_false] at hb
        exact ⟨hs, hne, hb ▸ heq, hP⟩
  next buf hpc =>
    split at hst <;> cases hst
    refine ⟨h.packets, fun buf' hb => ?_, h.received⟩
    simp only [reduceCtorEq, ReceivePc.insert.injEq, false_or] at hb
    exact hb ▸ h.buffered buf (Or.inl hpc)
  next buf hpc =>
    obtain ⟨hs, hne, heq, hP⟩ := h.buffered buf (Or.inr hpc)
    split at hst
    next =>
      cases hst
      exact ⟨h.packets, by simp, h.received⟩
    next =>
      split at hst
      next =>
        cases hst
        exact ⟨h.packets, by simp, h.received⟩
      next r hr =>
        cases hst
        refine ⟨h.packets, by simp, fun x hx => ?_⟩
        subst heq
        obtain ⟨r', hr', hmem⟩ := insertUpdate_digests hne s.receivedHashes
        rw [hr'] at hr
        cases hr
        rcases (hmem x).mp hx with hx | hx
        · exact h.received x hx
        · exact hP x hx
  next => cases hst
  next => cases hst

theorem Hears.endOfUpdate {P : ExifHash → Prop} {size : Nat} (h : Hears P updates size s)
    (hst : s.endOfUpdate protocol closed = some t) : Hears P updates size t := by
  unfold Receiving.endOfUpdate at hst
  split at hst
  · split at hst <;> cases hst
    exact ⟨h.packets, by simp [Receiving.received], h.received⟩
  · cases hst

end Receiving
end Jpgsync
