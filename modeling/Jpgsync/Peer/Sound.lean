import Jpgsync.Peer
import Jpgsync.Pipeline.Batches
import Jpgsync.Update.Bounds
import Jpgsync.Download.Moves
import Jpgsync.Upload.Moves

/-!
# Peer — Sound

What holds of one peer in every state it reaches, whatever its connections
deliver: the invariants of its pipeline, where its threads are relative to
each other, and that every buffer is within its bounds. Nothing here
assumes anything about the other peer.
-/

namespace Jpgsync

/-- The uploader has not set `updated`. -/
def UploadPc.BeforeUpdate : UploadPc → Prop
  | .wait | .lockUpdated | .setUpdated => True
  | _ => False

theorem UploadPc.not_beforeUpdate_of_inRound {pc : UploadPc} (h : pc.InRound) :
    ¬ pc.BeforeUpdate := by
  cases pc <;> simp_all [UploadPc.InRound, UploadPc.BeforeUpdate]

namespace Peer

/-- `sizeof(buf)` for the update packets. -/
def updateSize (cfg : Config) : Nat := cfg.protocol.hashesPerPacket * sizeofExifHash

/-- **One peer**, in any environment. -/
structure Sound (cfg : Config) (scans : List Scan) (p : Peer) : Prop where
  handOver : p.pipe.hasher.HandOver cfg.protocol.hashesPerPacket scans
  inv : p.pipe.Inv
  batched : p.pipe.Batched cfg.protocol.hashesPerPacket
  downloading : p.download ≠ .update → p.pipe.downloader = .finished
  downloadBounds : p.download.InBounds
  waiting : p.upload.BeforeUpdate → p.pipe.uploader = .load ∧
    p.pipe.processedEntryCount = 0 ∧ p.pipe.offered = [] ∧ p.pipe.skipped = []
  main : p.upload = .main → ∀ missing, p.pipe.uploader ≠ .offer missing
  round : p.upload.InRound → ∃ missing, p.pipe.uploader = .offer missing ∧
    p.upload.InBounds missing.length ∧ (p.upload.asking = [] ∨ p.upload.asking = missing)
  closed : p.upload = .closed → p.pipe.uploader = .finished
  notOverrun : p.upload ≠ .overrun
  updated : p.receiving.updated = true ↔ ¬ p.upload.BeforeUpdate
  lockedUp : p.receiving.updatedMutex = some .uploader ↔ p.upload = .setUpdated
  lockedReceiver : p.receiving.updatedMutex = some .receiver ↔
    ∃ buf, p.receiving.pc = .insert buf
  receiveBounds : p.receiving.InBounds (updateSize cfg)
  offers : p.receiving.updated = true → p.pipe.Offers p.receiving.receivedHashes

theorem sound_start (cfg : Config) (scans : List Scan) (disk : Disk) :
    Sound cfg scans (start scans disk) where
  handOver := ExifHasher.handOver_start _ _
  inv := Pipeline.inv_start scans
  batched := ⟨trivial, by simp [start, Pipeline.start, Pipeline.batchOf]⟩
  downloading := by simp [start]
  downloadBounds := trivial
  waiting := fun _ => ⟨rfl, rfl, rfl, rfl⟩
  main := by simp [start]
  round := by simp [start, UploadPc.InRound]
  closed := by simp [start]
  notOverrun := by simp [start]
  updated := by simp [start, Receiving.start, UploadPc.BeforeUpdate]
  lockedUp := by simp [start, Receiving.start]
  lockedReceiver := by simp [start, Receiving.start]
  receiveBounds := Nat.zero_le _
  offers := by simp [start, Receiving.start]

namespace Sound

variable {cfg : Config} {scans : List Scan} {p : Peer} {up down up' down' : Link} {k : Nat}

/-- A step of the pipeline by another thread than the uploader. -/
theorem pipe (h : Sound cfg scans p) {b : Pipeline.Act} (hb : b ≠ .uploader)
    (hcall : ∀ count, b = .call count → count = cfg.protocol.hashesPerPacket)
    (hdown : b = .downloader → p.download = .update) {pipe : Pipeline}
    (hst : p.pipe.step (runArgs cfg) p.receiving.receivedHashes b = some pipe) :
    Sound cfg scans { p with pipe := pipe } := by
  have hH : p.pipe.hasher.HandOver (runArgs cfg).progressThreshold scans := h.handOver
  obtain ⟨hup, hproc, hoff, hskip⟩ := Pipeline.uploader_frame hb hst
  refine { h with
    handOver := Pipeline.handOver_step rfl hH hst
    inv := h.inv.step hH hst
    batched := h.batched.step hH hcall hst
    downloading := ?_, waiting := ?_, main := ?_, round := ?_, closed := ?_, offers := ?_ }
  · intro hne
    have hb' : b ≠ .downloader := fun heq => hne (hdown heq)
    rw [Pipeline.downloader_frame hb' hst]
    exact h.downloading hne
  · intro hbefore
    obtain ⟨hl, h0, ho, hs⟩ := h.waiting hbefore
    rcases hup with hup | ⟨hasleep, _⟩
    · exact ⟨hup.trans hl, hproc.trans h0, hoff.trans ho, hskip.trans hs⟩
    · simp [hl] at hasleep
  · intro hmain missing
    rcases hup with hup | ⟨_, hrelock⟩
    · rw [hup]
      exact h.main hmain missing
    · simp [hrelock]
  · intro hround
    obtain ⟨missing, hoffer, hrest⟩ := h.round hround
    rcases hup with hup | ⟨hasleep, _⟩
    · exact ⟨missing, hup.trans hoffer, hrest⟩
    · simp [hoffer] at hasleep
  · intro hclosed
    have hfin := h.closed hclosed
    rcases hup with hup | ⟨hasleep, _⟩
    · exact hup.trans hfin
    · simp [hfin] at hasleep
  · exact fun hupd => (h.offers hupd).step h.inv hH hst

/-- A step of the uploader in its main loop or at the end of a round. -/
theorem pipeUploader (h : Sound cfg scans p) (hupd : ¬ p.upload.BeforeUpdate)
    {pipe : Pipeline} {upload : UploadPc}
    (hst : p.pipe.step (runArgs cfg) p.receiving.receivedHashes .uploader = some pipe)
    (hupload : upload = match pipe.uploader with
      | .offer missing => .offer (offerBytes missing) missing
      | _ => .main) :
    Sound cfg scans { p with pipe := pipe, upload := upload } := by
  have hH : p.pipe.hasher.HandOver (runArgs cfg).progressThreshold scans := h.handOver
  have hinv := h.inv.step hH hst
  have hset : p.upload ≠ .setUpdated := by
    intro heq
    simp [heq, UploadPc.BeforeUpdate] at hupd
  -- the round begins exactly when the pipeline has built an offer
  have hpc : (∀ missing, pipe.uploader = .offer missing →
        upload = .offer (offerBytes missing) missing) ∧
      ((∀ missing, pipe.uploader ≠ .offer missing) → upload = .main) := by
    rw [hupload]
    constructor
    · intro missing hoff
      rw [hoff]
    · intro hne
      split
      · exact absurd ‹_› (hne _)
      · rfl
  have hcases : upload = .main ∨ ∃ missing, upload = .offer (offerBytes missing) missing := by
    by_cases hex : ∃ missing, pipe.uploader = .offer missing
    · obtain ⟨missing, hoff⟩ := hex
      exact Or.inr ⟨missing, hpc.1 missing hoff⟩
    · exact Or.inl (hpc.2 fun missing hoff => hex ⟨missing, hoff⟩)
  refine { h with
    handOver := Pipeline.handOver_step rfl hH hst
    inv := hinv
    batched := h.batched.step hH (by simp) hst
    downloading := ?_, waiting := ?_, main := ?_, round := ?_, closed := ?_, notOverrun := ?_,
    updated := ?_, lockedUp := ?_, offers := ?_ }
  · intro hne
    rw [Pipeline.downloader_frame (by simp) hst]
    exact h.downloading hne
  · rcases hcases with hm | ⟨missing, hm⟩ <;> simp [hm, UploadPc.BeforeUpdate]
  · intro hm missing hoff
    rw [hpc.1 missing hoff] at hm
    cases hm
  · intro hround
    rcases hcases with hm | ⟨missing, hm⟩
    · simp [hm, UploadPc.InRound] at hround
    · have hoff : ∃ missing, pipe.uploader = .offer missing := by
        by_contra hne
        rw [hpc.2 fun m hm => hne ⟨m, hm⟩] at hm
        cases hm
      obtain ⟨missing', hoff⟩ := hoff
      have heq := hpc.1 missing' hoff
      have hfacts := hinv.facts
      simp only [Pipeline.UploaderFacts, hoff] at hfacts
      refine ⟨missing', hoff, ?_, ?_⟩
      · rw [heq]
        exact ⟨rfl, hfacts.2⟩
      · rw [heq]
        exact Or.inr rfl
  · rcases hcases with hm | ⟨missing, hm⟩ <;> simp [hm]
  · rcases hcases with hm | ⟨missing, hm⟩ <;> simp [hm]
  · have htrue := h.updated.mpr hupd
    rcases hcases with hm | ⟨missing, hm⟩ <;> simp [hm, UploadPc.BeforeUpdate, htrue]
  · have hnot : p.receiving.updatedMutex ≠ some .uploader := fun heq => hset (h.lockedUp.mp heq)
    rcases hcases with hm | ⟨missing, hm⟩ <;> simp [hm, hnot]
  · exact fun hupd' => (h.offers hupd').step h.inv hH hst

/-- What the update loop sends: the packet of a batch that `Get` handed
out. -/
theorem packet (h : Sound cfg scans p) {segment : List Entry}
    (hsend : p.pipe.downloader = .send segment) :
    segment ≠ [] ∧ segment.length * sizeofExifHash ≤ updateSize cfg ∧
      segment ∈ p.pipe.hasher.segments ∧
      updatePacket (updateSize cfg) segment =
        some (ExifHash.digests (segment.map Entry.hash).reverse) := by
  obtain ⟨hne, hlen, hmem⟩ := h.batched.batch segment (by simp [hsend, Pipeline.batchOf])
  have hroom : segment.length * sizeofExifHash ≤ updateSize cfg := Nat.mul_le_mul_right _ hlen
  exact ⟨hne, hroom, hmem, updatePacket_spec hne hroom⟩

/-- A step of the update loop. -/
theorem update (h : Sound cfg scans p) (hupdate : p.download = .update) {p' : Peer}
    (hst : p.updateStep cfg down = some (p', down')) : Sound cfg scans p' := by
  unfold updateStep at hst
  dsimp only at hst
  split at hst
  next hget =>
    obtain ⟨pipe, hpipe, heq⟩ := Option.map_eq_some_iff.mp hst
    cases heq
    split at hpipe
    · exact h.pipe (by simp) (by simp) (fun _ => hupdate) hpipe
    · exact h.pipe (by simp) (by simp) (fun _ => hupdate) hpipe
  next segment hsend =>
    have hpacket := (h.packet hsend).2.2.2
    rw [updateSize] at hpacket
    rw [hpacket] at hst
    obtain ⟨pipe, hpipe, heq⟩ := Option.map_eq_some_iff.mp hst
    cases heq
    exact h.pipe (by simp) (by simp) (fun _ => hupdate) hpipe
  next hfin =>
    cases hst
    exact { h with downloading := fun _ => hfin, downloadBounds := trivial }
  next =>
    obtain ⟨pipe, hpipe, heq⟩ := Option.map_eq_some_iff.mp hst
    cases heq
    exact h.pipe (by simp) (by simp) (fun _ => hupdate) hpipe

/-- A step of the downloader. -/
theorem download (h : Sound cfg scans p) {p' : Peer}
    (hst : p.downloadStep cfg k down = some (p', down')) : Sound cfg scans p' := by
  unfold downloadStep at hst
  split at hst
  next hupdate => exact h.update hupdate hst
  next hnotify =>
    cases hst
    exact { h with
      downloading := fun _ => h.downloading (by simp [hnotify]), downloadBounds := trivial }
  next hne _ =>
    obtain ⟨r, hr, heq⟩ := Option.map_eq_some_iff.mp hst
    cases heq
    exact { h with
      downloading := fun _ => h.downloading hne
      downloadBounds := Reception.inBounds_step (s := p.reception down) h.downloadBounds hr }

/-- Inside a round a step of the uploader stays inside it. -/
theorem emission (h : Sound cfg scans p) (hround : p.upload.InRound) {r : Emission}
    (hr : (p.emission up).step k = some r) :
    Sound cfg scans { p with upload := r.pc, host := r.host, uploads := r.uploads } := by
  obtain ⟨missing, hoffer, hbounds, hasking⟩ := h.round hround
  have hbounds' : r.pc.InBounds missing.length :=
    Emission.inBounds_step (s := p.emission up) hbounds hr
  have hpc : r.pc.InRound ∧ (r.pc.asking = [] ∨ r.pc.asking = p.upload.asking) := by
    cases Emission.move_of_step (s := p.emission up) hbounds hr with
    | write hw => exact ⟨hw.inRound, Or.inr hw.asking⟩
    | readMask buf buf' missing' hpc ht =>
        have hpc' : p.upload = .mask buf missing' := hpc
        rw [ht, hpc']
        exact ⟨trivial, Or.inr rfl⟩
    | decode buf missing' hpc hlen ht => rw [ht]; exact ⟨trivial, Or.inl rfl⟩
    | begin cursor e rest hpc hwants ht => rw [ht]; exact ⟨trivial, Or.inl rfl⟩
    | skip cursor e rest hpc hwants ht => rw [ht]; exact ⟨trivial, Or.inl rfl⟩
    | openFile l contents hpc hopen ht => rw [ht]; exact ⟨trivial, Or.inl rfl⟩
    | read fileSize l hpc contents hcontents ht => rw [ht]; exact ⟨trivial, Or.inl rfl⟩
    | fail report hbroken ht => rw [ht]; exact ⟨hround, Or.inr rfl⟩
  have hafter := UploadPc.not_beforeUpdate_of_inRound hpc.1
  have hupd := h.updated.mpr (UploadPc.not_beforeUpdate_of_inRound hround)
  -- in a round the uploader does not hold `updated_mutex`
  have hset : p.receiving.updatedMutex ≠ some .uploader := fun heq => by
    rw [h.lockedUp.mp heq] at hround
    exact hround
  refine { h with
    waiting := fun hb => absurd hb hafter, main := ?_, round := fun _ => ?_, closed := ?_,
    notOverrun := ?_, updated := ⟨fun _ => hafter, fun _ => hupd⟩, lockedUp := ?_ }
  · intro hm
    have hin : r.pc.InRound := hpc.1
    rw [show r.pc = .main from hm] at hin
    exact hin.elim
  · refine ⟨missing, hoffer, hbounds', ?_⟩
    rcases hpc.2 with hnil | heq
    · exact Or.inl hnil
    · rcases hasking with hnil | hmiss
      · exact Or.inl (heq.trans hnil)
      · exact Or.inr (heq.trans hmiss)
  · intro hc
    have hin : r.pc.InRound := hpc.1
    rw [show r.pc = .closed from hc] at hin
    exact hin.elim
  · intro ho
    have hin : r.pc.InRound := hpc.1
    rw [show r.pc = .overrun from ho] at hin
    exact hin.elim
  · refine ⟨fun heq => absurd heq hset, fun hs => ?_⟩
    have hin : r.pc.InRound := hpc.1
    rw [show r.pc = .setUpdated from hs] at hin
    exact hin.elim

/-- Outside of the update and the main loop only a round has steps. -/
theorem inRound_of_step (h : Sound cfg scans p) (hwait : p.upload ≠ .wait)
    (hlock : p.upload ≠ .lockUpdated) (hset : p.upload ≠ .setUpdated) (hmain : p.upload ≠ .main)
    {r : Emission} (hr : (p.emission up).step k = some r) : p.upload.InRound := by
  cases hpc : p.upload with
  | wait => exact absurd hpc hwait
  | lockUpdated => exact absurd hpc hlock
  | setUpdated => exact absurd hpc hset
  | main => exact absurd hpc hmain
  | closed =>
      have hpc' : (p.emission up).pc = .closed := hpc
      simp [Emission.step, hpc'] at hr
  | overrun => exact absurd hpc h.notOverrun
  | offer | mask | entry | name | openFile | size | read | payload => trivial

/-- A step of the uploader. -/
theorem upload (h : Sound cfg scans p) {p' : Peer}
    (hst : p.uploadStep cfg k up = some (p', up')) : Sound cfg scans p' := by
  unfold uploadStep at hst
  dsimp only at hst
  split at hst
  -- before the update ends `updated` is clear and the uploader owns nothing
  next hwait =>
    have hnot : p.receiving.updatedMutex ≠ some .uploader := by simp [h.lockedUp, hwait]
    have hupd : p.receiving.updated ≠ true := by
      simp [h.updated, hwait, UploadPc.BeforeUpdate]
    split at hst
    next => cases hst
    next => cases hst; exact { h with }
    next =>
      cases hst
      exact { h with
        waiting := fun _ => h.waiting (by simp [hwait, UploadPc.BeforeUpdate])
        main := by simp, round := by simp [UploadPc.InRound], closed := by simp
        notOverrun := by simp
        updated := by simpa [UploadPc.BeforeUpdate] using hupd
        lockedUp := by simpa using hnot }
  next hlock =>
    have hupd : p.receiving.updated ≠ true := by
      simp [h.updated, hlock, UploadPc.BeforeUpdate]
    split at hst
    next hfree =>
      cases hst
      have hpc := h.lockedReceiver
      simp only [hfree, reduceCtorEq, false_iff] at hpc
      exact { h with
        waiting := fun _ => h.waiting (by simp [hlock, UploadPc.BeforeUpdate])
        main := by simp, round := by simp [UploadPc.InRound], closed := by simp
        notOverrun := by simp
        updated := by simpa [UploadPc.BeforeUpdate] using hupd
        lockedUp := by simp
        lockedReceiver := by simpa using hpc }
    next => cases hst
  next hset =>
    cases hst
    obtain ⟨hl, h0, ho, hs⟩ := h.waiting (by simp [hset, UploadPc.BeforeUpdate])
    have hpc := h.lockedReceiver
    simp only [h.lockedUp.mpr hset, Option.some.injEq, reduceCtorEq, false_iff] at hpc
    exact { h with
      waiting := by simp [UploadPc.BeforeUpdate]
      main := by simp [hl], round := by simp [UploadPc.InRound], closed := by simp
      notOverrun := by simp
      updated := by simp [UploadPc.BeforeUpdate]
      lockedUp := by simp
      lockedReceiver := by simpa using hpc
      offers := fun _ => ⟨by simp [h0, ho], by simp [h0, hs], by simp [ho]⟩ }
  next hmain =>
    have hupd : ¬ p.upload.BeforeUpdate := by simp [hmain, UploadPc.BeforeUpdate]
    split at hst
    next hfin =>
      cases hst
      have htrue := h.updated.mpr hupd
      have hnot : p.receiving.updatedMutex ≠ some .uploader := by simp [h.lockedUp, hmain]
      exact { h with
        waiting := by simp [UploadPc.BeforeUpdate]
        main := by simp, round := by simp [UploadPc.InRound], closed := fun _ => hfin
        notOverrun := by simp
        updated := by simp [UploadPc.BeforeUpdate, htrue]
        lockedUp := by simpa using hnot }
    next =>
      obtain ⟨pipe, hpipe, heq⟩ := Option.map_eq_some_iff.mp hst
      cases heq
      exact h.pipeUploader hupd hpipe rfl
  -- the end of a round: the pipeline goes back to its load
  next cursor hentry =>
    obtain ⟨pipe, hpipe, heq⟩ := Option.map_eq_some_iff.mp hst
    cases heq
    have hin : p.upload.InRound := by simp [hentry, UploadPc.InRound]
    obtain ⟨missing, hoffer, _⟩ := h.round hin
    have hload : pipe.uploader = .load := by
      simp only [Pipeline.step, Pipeline.uploaderStep, hoffer, Option.some.injEq] at hpipe
      rw [← hpipe]
    exact h.pipeUploader (UploadPc.not_beforeUpdate_of_inRound hin) hpipe (by rw [hload])
  next hw hl hs hm he =>
    obtain ⟨r, hr, heq⟩ := Option.map_eq_some_iff.mp hst
    cases heq
    exact h.emission (h.inRound_of_step hw hl hs hm hr) hr

/-- A step of the update receiver. -/
theorem receive (h : Sound cfg scans p) {updates : List Bytes} {closed : Bool} {r : Receiving}
    (hst : p.receiving.step cfg.protocol updates closed k = some r) :
    Sound cfg scans { p with receiving := r } := by
  have hbounds := Receiving.inBounds_step h.receiveBounds hst
  obtain ⟨hupd, hcases⟩ := Receiving.step_shared h.receiveBounds hst
  -- the receiver reads, takes the mutex, or gives it up after inserting
  rcases hcases with ⟨hr, hm, ht, hs⟩ | ⟨hfree, hm, hr, ht, hs⟩ | ⟨⟨buf, hs⟩, hm, ht, hr⟩
  · refine { h with
      updated := by rw [← h.updated, hupd], lockedUp := by rw [hm]; exact h.lockedUp,
      lockedReceiver := ?_, receiveBounds := hbounds,
      offers := by rw [hupd, hr]; exact h.offers }
    rw [hm, h.lockedReceiver]
    exact ⟨fun ⟨buf, hb⟩ => absurd hb (hs buf), fun ⟨buf, hb⟩ => absurd hb (ht buf)⟩
  · refine { h with
      updated := by rw [← h.updated, hupd], lockedUp := ?_,
      lockedReceiver := ⟨fun _ => ht, fun _ => hm⟩, receiveBounds := hbounds,
      offers := by rw [hupd, hr]; exact h.offers }
    have hnot := h.lockedUp
    simp only [hfree, reduceCtorEq, false_iff] at hnot
    simp [hm, hnot]
  · have hnot := h.lockedUp
    simp only [h.lockedReceiver.mpr ⟨buf, hs⟩, Option.some.injEq, reduceCtorEq,
      false_iff] at hnot
    refine { h with
      updated := by rw [← h.updated, hupd], lockedUp := by simpa [hm] using hnot,
      lockedReceiver := ?_, receiveBounds := hbounds, offers := ?_ }
    · rw [hm]
      exact ⟨fun heq => (by cases heq), fun ⟨buf, hb⟩ => absurd hb (ht buf)⟩
    · intro ht'
      rw [hupd] at ht'
      rw [hr ht']
      exact h.offers ht'

/-- **Every step of a peer keeps it sound**, whatever its links hold. -/
theorem stepOpen (h : Sound cfg scans p) {a : Act} {p' : Peer}
    (hst : p.stepOpen cfg up down a = some (p', up', down')) : Sound cfg scans p' := by
  cases a with
  | run | getWakes | uploaderWakes =>
      obtain ⟨pipe, hpipe, heq⟩ := Option.map_eq_some_iff.mp hst
      cases heq
      exact h.pipe (by simp) (by simp) (by simp) hpipe
  | receive k =>
      obtain ⟨r, hr, heq⟩ := Option.map_eq_some_iff.mp hst
      cases heq
      exact h.receive hr
  | endOfUpdate =>
      obtain ⟨r, hr, heq⟩ := Option.map_eq_some_iff.mp hst
      cases heq
      have hbounds : r.InBounds (updateSize cfg) := Receiving.inBounds_endOfUpdate hr
      unfold Receiving.endOfUpdate at hr
      split at hr
      · rename_i buf hpc
        split at hr <;> cases hr
        have hrecv := h.lockedReceiver
        simp only [hpc, reduceCtorEq, exists_false, iff_false] at hrecv
        exact { h with
          lockedReceiver := by simpa [Receiving.received] using hrecv
          receiveBounds := hbounds }
      · cases hr
  | upload k =>
      obtain ⟨r, hr, heq⟩ := Option.map_eq_some_iff.mp hst
      cases heq
      exact h.upload hr
  | download k =>
      obtain ⟨r, hr, heq⟩ := Option.map_eq_some_iff.mp hst
      cases heq
      exact h.download hr
  | «return» =>
      simp only [Peer.stepOpen] at hst
      split at hst <;> cases hst
      exact { h with }

theorem step (h : Sound cfg scans p) {a : Act} {p' : Peer}
    (hst : p.step cfg up down a = some (p', up', down')) : Sound cfg scans p' := by
  unfold Peer.step at hst
  split at hst
  · cases hst
  · obtain ⟨r, hr, heq⟩ := Option.map_eq_some_iff.mp hst
    have hsound := h.stepOpen hr
    split at heq <;> (cases heq; exact hsound)

end Sound
end Peer
end Jpgsync
