import Jpgsync.Session
import Jpgsync.Peer.Moves

/-!
# Session — Skipping

The uploader leaves out what the remote downloader has announced. An
announced hash is in the remote hasher: every packet ever sent consists of
digests of hashes the remote `Get` handed out, and it is unpacked to
exactly these. So whatever the update channel does, an entry that is
skipped is one the remote peer holds (`skips_held`).
-/

namespace Jpgsync

/-! ## What a step leaves alone -/

namespace Peer

variable {cfg : Config} {scans : List Scan} {p q : Peer} {up down up' down' : Link} {a : Act}

/-- A peer's list only grows. -/
theorem Sound.entries_step (h : Sound cfg scans p)
    (hst : p.step cfg up down a = some (q, up', down')) :
    p.pipe.hasher.entries <+: q.pipe.hasher.entries := by
  rcases h.pipe_of_step hst with hsame | ⟨b, hpipe⟩
  · rw [hsame]
  · exact Pipeline.entries_frame hpipe

/-- The hashes of a peer only grow. -/
theorem Sound.hashes_step (h : Sound cfg scans p)
    (hst : p.step cfg up down a = some (q, up', down')) {hash : ExifHash}
    (hh : hash ∈ p.pipe.hasher.hashes) : hash ∈ q.pipe.hasher.hashes := by
  obtain ⟨ext, hext⟩ := h.entries_step hst
  rw [h.handOver.mem] at hh
  rw [(h.step hst).handOver.mem, ← hext, List.map_append]
  exact List.mem_append_left _ hh

/-- Once `updated` is set, `received_hashes` stays. -/
theorem Sound.received_step (h : Sound cfg scans p) (hupd : p.receiving.updated = true)
    (hst : p.step cfg up down a = some (q, up', down')) :
    q.receiving.updated = true ∧ q.receiving.receivedHashes = p.receiving.receivedHashes := by
  obtain ⟨_, _, _, _, hmove, _⟩ := h.move_of_step hst
  cases hmove with
  | receive k r hr =>
      obtain ⟨hu, hcases⟩ := Receiving.step_shared h.receiveBounds hr
      refine ⟨hu.trans hupd, ?_⟩
      rcases hcases with ⟨hr, _⟩ | ⟨_, _, hr, _⟩ | ⟨_, _, _, hr⟩
      · exact hr
      · exact hr
      · exact hr hupd
  | endOfUpdate r hr =>
      unfold Receiving.endOfUpdate at hr
      split at hr
      · split at hr <;> cases hr
        exact ⟨hupd, rfl⟩
      · cases hr
  | setUpdated => exact ⟨rfl, rfl⟩
  | _ => exact ⟨hupd, rfl⟩

/-- What a step does to the update packets of its links. -/
theorem Sound.updates_step (h : Sound cfg scans p)
    (hst : p.step cfg up down a = some (q, up', down')) :
    up'.updates = up.updates ∧
      (down'.updates = down.updates ∨ ∃ segment, p.pipe.downloader = .send segment ∧
        down'.updates =
          down.updates ++ [ExifHash.digests (segment.map Entry.hash).reverse]) := by
  obtain ⟨up₁, down₁, hmove, hends⟩ := h.upToEnds_of_step hst
  rw [hends.heard, hends.updates]
  cases hmove with
  | sendUpdate k segment pipe hsend hpipe => exact ⟨rfl, Or.inr ⟨segment, hsend, rfl⟩⟩
  | _ => exact ⟨rfl, Or.inl rfl⟩

end Peer

/-! ## Heard hashes are held -/

namespace Session

/-- Both sides are built for update packets. -/
def Packets (A B : Site) : Prop := A.cfg.protocol = .dccp ∧ B.cfg.protocol = .dccp

/-- **Heard is held**: the uploading peer hears of hashes of the
downloading peer only. -/
structure HearsHeld (SX : Site) (X : Peer) (SY : Site) (Y : Peer) (L : Link) : Prop where
  packets : Packets SX SY
  sound : X.Sound SX.cfg SX.scans ∧ Y.Sound SY.cfg SY.scans
  hears : X.receiving.Hears (· ∈ Y.pipe.hasher.hashes) L.updates
    (UpdateProtocol.dccp.hashesPerPacket * sizeofExifHash)

theorem HearsHeld.up {SX SY : Site} {X Y X' : Peer} {L M L' M' : Link} {a : Peer.Act}
    (h : HearsHeld SX X SY Y L) (hst : X.step SX.cfg L M a = some (X', L', M')) :
    HearsHeld SX X' SY Y L' := by
  obtain ⟨_, _, up₁, down₁, hmove, _⟩ := h.sound.1.move_of_step hst
  refine ⟨h.packets, ⟨h.sound.1.step hst, h.sound.2⟩, ?_⟩
  rw [(h.sound.1.updates_step hst).1]
  cases hmove with
  | receive k r hr =>
      rw [h.packets.1] at hr
      exact h.hears.step hr
  | endOfUpdate r hr => exact h.hears.endOfUpdate hr
  | _ => exact ⟨h.hears.packets, h.hears.buffered, h.hears.received⟩

theorem HearsHeld.down {SX SY : Site} {X Y Y' : Peer} {L M L' M' : Link} {a : Peer.Act}
    (h : HearsHeld SX X SY Y L) (hst : Y.step SY.cfg M L a = some (Y', M', L')) :
    HearsHeld SX X SY Y' L' := by
  have hmono : X.receiving.Hears (· ∈ Y'.pipe.hasher.hashes) L.updates
      (UpdateProtocol.dccp.hashesPerPacket * sizeofExifHash) :=
    h.hears.mono fun _ hx => h.sound.2.hashes_step hst hx
  refine ⟨h.packets, ⟨h.sound.1, h.sound.2.step hst⟩, ?_⟩
  rcases (h.sound.2.updates_step hst).2 with heq | ⟨segment, hsend, heq⟩
  · rw [heq]
    exact hmono
  · -- a new packet: its hashes were handed out by `Get`
    obtain ⟨hne, hlen, hmem, _⟩ := h.sound.2.packet hsend
    rw [heq]
    refine ⟨fun packet hp => ?_, hmono.buffered, hmono.received⟩
    rcases List.mem_append.mp hp with hp | hp
    · exact hmono.packets packet hp
    · rw [List.mem_singleton.mp hp]
      refine ⟨(segment.map Entry.hash).reverse, by simpa using hne, rfl, ?_, fun x hx => ?_⟩
      · rw [Peer.updateSize, h.packets.2] at hlen
        simpa using hlen
      · obtain ⟨e, he, rfl⟩ := List.mem_map.mp (List.mem_reverse.mp hx)
        refine h.sound.2.hashes_step hst ?_
        rw [h.sound.2.handOver.mem]
        refine List.mem_map_of_mem ?_
        have hflat : e ∈ Y.pipe.hasher.segments.flatten := List.mem_flatten.mpr ⟨_, hmem, he⟩
        rw [h.sound.2.handOver.handed] at hflat
        exact List.mem_of_mem_take hflat

theorem hearsHeld_start {SX SY : Site} (hp : Packets SX SY) :
    HearsHeld SX (.start SX.scans SX.disk) SY (.start SY.scans SY.disk) .start where
  packets := hp
  sound := ⟨Peer.sound_start _ _ _, Peer.sound_start _ _ _⟩
  hears := ⟨by simp [Link.start], by simp [Peer.start, Receiving.start],
    by simp [Peer.start, Receiving.start]⟩

theorem hearsHeld_of_reachable {A B : Site} (hp : Packets A B) {s : Session}
    (hs : (system A B).Reachable (start A B) s) :
    HearsHeld A s.a B s.b s.ab ∧ HearsHeld B s.b A s.a s.ba := by
  refine hs.invariant (I := fun s => HearsHeld A s.a B s.b s.ab ∧ HearsHeld B s.b A s.a s.ba)
    ?_ ⟨hearsHeld_start hp, hearsHeld_start ⟨hp.2, hp.1⟩⟩
  intro s a t h hst
  exact directions_step (fun _ _ _ _ _ _ => True) (fun _ _ _ _ _ _ => True)
    (fun h _ hst => h.up hst) (fun h _ hst => h.down hst) h
    (by split <;> exact ⟨trivial, trivial⟩) hst

/-- What an uploader skips it has heard of. -/
theorem heard_of_skipped {cfg : Config} {scans : List Scan} {X : Peer} (h : X.Sound cfg scans)
    {e : Entry} (he : e ∈ X.pipe.skipped) : e.hash ∈ X.receiving.receivedHashes := by
  by_cases hupd : X.receiving.updated = true
  · rw [(h.offers hupd).skipped] at he
    simpa using (List.mem_filter.mp he).2
  · have hbefore : X.upload.BeforeUpdate := by
      by_contra hne
      exact hupd (h.updated.mpr hne)
    rw [(h.waiting hbefore).2.2.2] at he
    simp at he

/-- **Skipping is sound** under any behaviour of the update channel: in
every reachable state the received hashes of each peer are hashes of the
other, once `updated` is set they never change again, and every entry an
uploader has skipped is one the remote peer holds. -/
theorem skips_held {A B : Site} (hp : Packets A B) {s : Session}
    (hs : (system A B).Reachable (start A B) s) :
    ((∀ h ∈ s.a.receiving.receivedHashes, h ∈ s.b.pipe.hasher.hashes) ∧
        ∀ h ∈ s.b.receiving.receivedHashes, h ∈ s.a.pipe.hasher.hashes) ∧
      (∀ t, (system A B).Reachable s t →
        (s.a.receiving.updated = true →
            t.a.receiving.receivedHashes = s.a.receiving.receivedHashes) ∧
          (s.b.receiving.updated = true →
            t.b.receiving.receivedHashes = s.b.receiving.receivedHashes)) ∧
      (∀ e ∈ s.a.pipe.skipped, s.b.contains e.hash = true) ∧
      ∀ e ∈ s.b.pipe.skipped, s.a.contains e.hash = true := by
  obtain ⟨hab, hba⟩ := hearsHeld_of_reachable hp hs
  refine ⟨⟨hab.hears.received, hba.hears.received⟩, fun t ht => ?_, fun e he => ?_,
    fun e he => ?_⟩
  -- per step, for whichever peer moves; then along the run from `s`
  · have hsteps : ∀ u a v, (u.a.Sound A.cfg A.scans ∧ u.b.Sound B.cfg B.scans) →
        (system A B).step u a = some v →
        (u.a.receiving.updated = true → v.a.receiving.updated = true ∧
            v.a.receiving.receivedHashes = u.a.receiving.receivedHashes) ∧
          (u.b.receiving.updated = true → v.b.receiving.updated = true ∧
            v.b.receiving.receivedHashes = u.b.receiving.receivedHashes) := by
      rintro u ⟨side, a⟩ v ⟨ha, hb⟩ hst
      cases side with
      | a =>
          obtain ⟨⟨p, up, down⟩, hpst, rfl⟩ := Option.map_eq_some_iff.mp hst
          exact ⟨fun hupd => ha.received_step hupd hpst, fun hupd => ⟨hupd, rfl⟩⟩
      | b =>
          obtain ⟨⟨p, up, down⟩, hpst, rfl⟩ := Option.map_eq_some_iff.mp hst
          exact ⟨fun hupd => ⟨hupd, rfl⟩, fun hupd => hb.received_step hupd hpst⟩
    have hall := ht.invariant
      (I := fun u => (system A B).Reachable (start A B) u ∧
        (s.a.receiving.updated = true → u.a.receiving.updated = true ∧
            u.a.receiving.receivedHashes = s.a.receiving.receivedHashes) ∧
          (s.b.receiving.updated = true → u.b.receiving.updated = true ∧
            u.b.receiving.receivedHashes = s.b.receiving.receivedHashes)) ?_
      ⟨hs, fun hupd => ⟨hupd, rfl⟩, fun hupd => ⟨hupd, rfl⟩⟩
    · exact ⟨fun hupd => (hall.2.1 hupd).2, fun hupd => (hall.2.2 hupd).2⟩
    · rintro u a v ⟨hu, hau, hbu⟩ hst
      obtain ⟨hstA, hstB⟩ := hsteps u a v (sound_of_reachable hu) hst
      refine ⟨hu.trans ⟨[a], by simp [StepSystem.exec, hst]⟩, fun hupd => ?_, fun hupd => ?_⟩
      · obtain ⟨hu', heq⟩ := hau hupd
        exact ⟨(hstA hu').1, (hstA hu').2.trans heq⟩
      · obtain ⟨hu', heq⟩ := hbu hupd
        exact ⟨(hstB hu').1, (hstB hu').2.trans heq⟩
  · exact decide_eq_true (hab.hears.received _ (heard_of_skipped hab.sound.1 he))
  · exact decide_eq_true (hba.hears.received _ (heard_of_skipped hba.sound.1 he))

/-- `b` hashes its image and sends the update, `a` receives it. -/
def hearingRun : List (Side × Peer.Act) :=
  runs .b 4 ++ downloads .b (List.replicate 8 0) ++
    [(.a, .receive 0), (.a, .receive 0), (.a, .receive 0)]

theorem skips_held_hearingRun :
    ∃ s, (system emptySite imageSite).exec (start emptySite imageSite) hearingRun = some s ∧
      s.a.receiving.receivedHashes = [⟨1, 0, 0, 0, 0⟩] ∧
      ∀ h ∈ s.a.receiving.receivedHashes, h ∈ s.b.pipe.hasher.hashes := by
  have hheard : ((system emptySite imageSite).exec (start emptySite imageSite) hearingRun).map
      (fun s => s.a.receiving.receivedHashes) = some [⟨1, 0, 0, 0, 0⟩] := by
    decide +kernel
  obtain ⟨s, hs, heq⟩ := Option.map_eq_some_iff.mp hheard
  exact ⟨s, hs, heq, (skips_held ⟨rfl, rfl⟩ ⟨_, hs⟩).1.1⟩

end Session
end Jpgsync
