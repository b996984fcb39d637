import Jpgsync.Peer.Index

/-!
# Peer — Sides

A peer is two things at once: the uploading end of one direction and the
downloading end of the other. `UpMove` says what a step does to the first,
`DownMove` what it does to the second; a step of one end leaves the other
alone. An invariant of a direction needs only these.
-/

namespace Jpgsync

/-- Between rounds: no byte of an item is begun, none is due. -/
def UploadPc.Idle : UploadPc → Prop
  | .lockUpdated | .setUpdated | .main | .closed | .entry _ [] => True
  | _ => False

namespace Peer

/-- **The uploading end of a step.** -/
inductive UpMove (p : Peer) (up : Link) (a : Act) (q : Peer) (up' : Link) : Prop
  | other (hupload : q.upload = p.upload) (huploads : q.uploads = p.uploads)
      (hoffered : q.pipe.offered = p.pipe.offered) (hoffers : up'.offers = up.offers)
      (hreplies : up'.replies = up.replies)
  | noUpdate (hpc : p.upload = .wait) (hclosed : up.replies.closed = true)
      (hpending : up.replies.pending = []) (hdead : q.terminated = true)
      (hupload : q.upload = .wait) (huploads : q.uploads = p.uploads)
      (hoffered : q.pipe.offered = p.pipe.offered) (hoffers : up'.offers = up.offers)
  | waited (byte : UInt8) (hpc : p.upload = .wait) (hupload : q.upload = .lockUpdated)
      (huploads : q.uploads = p.uploads) (hoffered : q.pipe.offered = p.pipe.offered)
      (hoffers : up'.offers = up.offers)
      (hpending : up.replies.pending = byte :: up'.replies.pending)
      (hclosed : up'.replies.closed = up.replies.closed)
  | idle (hpc : p.upload.Idle) (hupload : q.upload.Idle ∧ ¬ q.upload.InRound)
      (hopen : p.upload ≠ .closed ∧ q.upload ≠ .closed) (huploads : q.uploads = p.uploads)
      (hoffered : q.pipe.offered = p.pipe.offered) (hoffers : up'.offers = up.offers)
      (hreplies : up'.replies = up.replies)
  | leave (hpc : p.upload = .main) (hupload : q.upload = .closed)
      (huploads : q.uploads = p.uploads) (hoffered : q.pipe.offered = p.pipe.offered)
      (hoffers : up'.offers = up.offers.close) (hreplies : up'.replies = up.replies)
  | beginRound (missing : List Entry) (hpc : p.upload = .main)
      (hupload : q.upload = .offer (offerBytes missing) missing)
      (huploads : q.uploads = p.uploads)
      (hoffered : q.pipe.offered = p.pipe.offered ++ [missing])
      (hoffers : up'.offers = up.offers) (hreplies : up'.replies = up.replies)
  | emission (k : Nat) (r : Emission) (ha : a = .upload k) (hround : p.upload.InRound)
      (hr : Emission.Move k (p.emission up) r) (hupload : q.upload = r.pc)
      (huploads : q.uploads = r.uploads) (hhost : q.host = r.host)
      (hoffered : q.pipe.offered = p.pipe.offered) (hoffers : up'.offers = r.output)
      (hreplies : up'.replies = r.input)

/-- **The downloading end of a step.** -/
inductive DownMove (cfg : Config) (p : Peer) (down : Link) (a : Act) (q : Peer) (down' : Link) :
    Prop
  | other (hdownload : q.download = p.download) (haccepted : q.accepted = p.accepted)
      (hdownloads : q.downloads = p.downloads) (hhost : q.terminated = false → q.host = p.host)
      (hoffers : down'.offers = down.offers) (hreplies : down'.replies = down.replies)
  | endUpdate (hpc : p.download = .update) (hdownload : q.download = .notify)
      (haccepted : q.accepted = p.accepted) (hdownloads : q.downloads = p.downloads)
      (hhost : q.host = p.host) (hoffers : down'.offers = down.offers)
      (hreplies : down'.replies = down.replies)
  | notify (byte : UInt8) (hpc : p.download = .notify) (hdownload : q.download = .count)
      (haccepted : q.accepted = p.accepted) (hdownloads : q.downloads = p.downloads)
      (hhost : q.host = p.host) (hoffers : down'.offers = down.offers)
      (hreplies : down'.replies = down.replies.push [byte])
  | reception (k : Nat) (r : Reception) (ha : a = .download k)
      (hpc : p.download ≠ .update ∧ p.download ≠ .notify)
      (hr : Reception.Move p.contains cfg.downloadDir k (p.reception down) r)
      (hdownload : q.download = r.pc) (haccepted : q.accepted = r.accepted)
      (hdownloads : q.downloads = r.downloads) (hhost : q.host = r.host)
      (hoffers : down'.offers = r.input) (hreplies : down'.replies = r.output)

variable {cfg : Config} {scans : List Scan} {p q : Peer} {up down up' down' : Link} {a : Act}

/-- An upload round changes nothing on the disk; all it does to the logger
is to call `Fatal`. -/
theorem emission_host {k : Nat} {s t : Emission} (h : Emission.Move k s t) :
    t.host = s.host ∨ ∃ report, Emission.Broken s ∧ t.host = (s.fatal report).host := by
  cases h with
  | write hw => exact Or.inl hw.host
  | fail report hbroken ht => exact Or.inr ⟨report, hbroken, by rw [ht]⟩
  | readMask buf buf' missing hpc ht => rw [ht]; exact Or.inl rfl
  | decode buf missing hpc hlen ht => rw [ht]; exact Or.inl rfl
  | begin cursor e rest hpc hwants ht => rw [ht]; exact Or.inl rfl
  | skip cursor e rest hpc hwants ht => rw [ht]; exact Or.inl rfl
  | openFile l contents hpc hopen ht => rw [ht]; exact Or.inl rfl
  | read fileSize l hpc contents hcontents ht => rw [ht]; exact Or.inl rfl

theorem Move.upMove (h : Move cfg p up down a q up' down') : UpMove p up a q up' := by
  cases h with
  | pipe _ b pipe hb ha hpipe =>
      exact .other rfl rfl (Pipeline.uploader_frame hb hpipe).2.2.1 rfl rfl
  | sendUpdate k segment pipe hsend hpipe =>
      exact .other rfl rfl (Pipeline.uploader_frame (by simp) hpipe).2.2.1 rfl rfl
  | noUpdate k hpc hclosed hpending =>
      exact .noUpdate hpc hclosed hpending rfl hpc rfl rfl rfl
  | waited k byte replies hpc hpending hclosed =>
      exact .waited byte hpc rfl rfl rfl rfl hpending hclosed
  | lockUpdated k hpc =>
      exact .idle (by rw [hpc]; trivial) ⟨trivial, id⟩ ⟨by simp [hpc], by simp⟩ rfl rfl rfl rfl
  | setUpdated k hpc =>
      exact .idle (by rw [hpc]; trivial) ⟨trivial, id⟩ ⟨by simp [hpc], by simp⟩ rfl rfl rfl rfl
  | leave k hpc hfin => exact .leave hpc rfl rfl rfl rfl rfl
  | loop k pipe hpc hpipe hnone =>
      have hoffered : pipe.offered = p.pipe.offered := by
        rcases Pipeline.uploader_offered hpipe with ⟨ho, _⟩ | ⟨missing, hm, _⟩
        · exact ho
        · exact absurd hm (hnone missing)
      refine .idle ?_ ⟨trivial, id⟩ ⟨?_, by simp⟩ rfl hoffered rfl rfl
      · rcases hpc with hpc | ⟨cursor, hpc⟩ <;> rw [hpc] <;> trivial
      · rcases hpc with hpc | ⟨cursor, hpc⟩ <;> simp [hpc]
  | beginRound k pipe missing hpc hpipe hoffer =>
      rcases Pipeline.uploader_offered hpipe with ⟨_, hne⟩ | ⟨missing', hm, ho⟩
      · exact absurd hoffer (hne missing)
      · rw [hoffer, UploaderPc.offer.injEq] at hm
        exact .beginRound missing hpc rfl rfl (by rw [hm]; exact ho) rfl rfl
  | emission k r hround hr => exact .emission k r rfl hround hr rfl rfl rfl rfl rfl rfl
  | _ => exact .other rfl rfl rfl rfl rfl

theorem Move.downMove (h : Move cfg p up down a q up' down') : DownMove cfg p down a q down' := by
  cases h with
  | endUpdate k hpc hfin => exact .endUpdate hpc rfl rfl rfl rfl rfl rfl
  | notify k hpc => exact .notify _ hpc rfl rfl rfl rfl rfl rfl
  | reception k r hpc hr => exact .reception k r rfl hpc hr rfl rfl rfl rfl rfl rfl
  | emission k r hround hr =>
      refine .other rfl rfl rfl (fun hlive => ?_) rfl rfl
      rcases emission_host hr with hhost | ⟨report, _, hhost⟩
      · exact hhost
      · rw [terminated, hhost] at hlive
        cases hlive
  | noUpdate k hpc hclosed hpending => exact .other rfl rfl rfl nofun rfl rfl
  | _ => exact .other rfl rfl rfl (fun _ => rfl) rfl rfl

/-- The receiving loop writes nothing on the stream it reads. -/
theorem reception_sent {contains : ExifHash → Bool} {dir : Bytes} {k : Nat} {s t : Reception}
    (h : Reception.Move contains dir k s t) : t.input.sent = s.input.sent := by
  cases h with
  | read hr => exact hr.sent
  | fail report hbroken ht hsent => exact hsent
  | reply rest rest' missing hpc hrest ht => rw [ht]
  | answer hashCount buf a hpc ha ht => rw [ht]
  | create hash filename fileSize missing hpc ht => rw [ht]; rfl
  | store hash filename target file missing hpc ht => rw [ht]
  | close hpc hclosed hpending ht => rw [ht]

theorem DownMove.sent {cfg : Config} {p q : Peer} {down down' : Link} {a : Act}
    (h : DownMove cfg p down a q down') : down'.offers.sent = down.offers.sent := by
  cases h with
  | other hdownload haccepted hdownloads hhost hoffers hreplies => rw [hoffers]
  | endUpdate hpc hdownload haccepted hdownloads hhost hoffers hreplies => rw [hoffers]
  | notify byte hpc hdownload haccepted hdownloads hhost hoffers hreplies => rw [hoffers]
  | reception k r ha hpc hr hdownload haccepted hdownloads hhost hoffers hreplies =>
      rw [hoffers]
      exact reception_sent hr

/-- What a step of the receiving loop that does not call `Fatal` leaves of
its place. -/
theorem reception_live {contains : ExifHash → Bool} {dir : Bytes} {k : Nat} {s t : Reception}
    (h : Reception.Move contains dir k s t) (hlive : t.host.logger.terminated = false) :
    t.input.closed = s.input.closed ∧ DownloadPc.InLoop t.pc := by
  cases h with
  | read hr => exact ⟨hr.closed, hr.inLoop⟩
  | fail report hbroken ht =>
      rw [ht] at hlive
      cases hlive
  | reply rest rest' missing hpc hrest ht => rw [ht]; exact ⟨rfl, trivial⟩
  | answer hashCount buf a hpc ha ht => rw [ht]; exact ⟨rfl, trivial⟩
  | create hash filename fileSize missing hpc ht => rw [ht]; exact ⟨rfl, trivial⟩
  | store hash filename target file missing hpc ht => rw [ht]; exact ⟨rfl, trivial⟩
  | close hpc hclosed hpending ht => rw [ht]; exact ⟨rfl, trivial⟩

theorem DownMove.live {cfg : Config} {p q : Peer} {down down' : Link} {a : Act}
    (h : DownMove cfg p down a q down') (hlive : q.terminated = false) :
    down'.offers.closed = down.offers.closed ∧
      (DownloadPc.InLoop p.download → DownloadPc.InLoop q.download) := by
  cases h with
  | other hdownload haccepted hdownloads hhost hoffers hreplies =>
      exact ⟨by rw [hoffers], fun hin => by rw [hdownload]; exact hin⟩
  | endUpdate hpc hdownload haccepted hdownloads hhost hoffers hreplies =>
      refine ⟨by rw [hoffers], fun hin => ?_⟩
      rw [hpc] at hin
      exact hin.elim
  | notify byte hpc hdownload haccepted hdownloads hhost hoffers hreplies =>
      exact ⟨by rw [hoffers], fun _ => by rw [hdownload]; trivial⟩
  | reception k r ha hpc hr hdownload haccepted hdownloads hhost hoffers hreplies =>
      rw [terminated, hhost] at hlive
      obtain ⟨hclosed, hin⟩ := reception_live hr hlive
      exact ⟨by rw [hoffers]; exact hclosed, fun _ => by rw [hdownload]; exact hin⟩

/-- **Both ends of a step** that does not terminate the peer. -/
theorem Sound.ends_of_step (h : Sound cfg scans p)
    (hst : p.step cfg up down a = some (q, up', down')) (hlive : q.terminated = false) :
    UpMove p up a q up' ∧ DownMove cfg p down a q down' := by
  obtain ⟨_, _, up₁, down₁, hmove, hgo, _⟩ := h.move_of_step hst
  obtain ⟨rfl, rfl⟩ := hgo hlive
  exact ⟨hmove.upMove, hmove.downMove⟩

/-- **Why a step calls `Fatal`**, and what that leaves in the logger. -/
theorem Sound.broken_of_step (h : Sound cfg scans p)
    (hst : p.step cfg up down a = some (q, up', down')) (hdead : q.terminated = true) :
    (∃ report, q.host.logger = p.host.logger.fatal report) ∧
      ((p.upload = .wait ∧ up.replies.closed = true) ∨ Emission.Broken (p.emission up) ∨
        Reception.Broken (p.reception down)) := by
  obtain ⟨hlive, _, up₁, down₁, hmove, _⟩ := h.move_of_step hst
  have halive : p.terminated ≠ true := by simp [hlive]
  cases hmove with
  | noUpdate k hpc hclosed hpending => exact ⟨⟨_, rfl⟩, Or.inl ⟨hpc, hclosed⟩⟩
  | emission k r hround hr =>
      rcases emission_host hr with hhost | ⟨report, hbroken, hhost⟩
      · have hhost' : r.host = p.host := hhost
        exact absurd (by rw [terminated, ← hhost']; exact hdead) halive
      · exact ⟨⟨report, by rw [hhost]; rfl⟩, Or.inr (Or.inl hbroken)⟩
  | reception k r hpc hr =>
      cases hr with
      | fail report hbroken ht => exact ⟨⟨report, by rw [ht]; rfl⟩, Or.inr (Or.inr hbroken)⟩
      | read hw =>
          have hhost : r.host = p.host := hw.host
          exact absurd (by rw [terminated, ← hhost]; exact hdead) halive
      | reply rest rest' missing hpc hrest ht => rw [ht] at hdead; exact absurd hdead halive
      | answer hashCount buf a hpc ha ht => rw [ht] at hdead; exact absurd hdead halive
      | create hash filename fileSize missing hpc ht =>
          rw [ht] at hdead
          refine absurd ?_ halive
          simp only [terminated, Reception.create] at hdead
          split at hdead <;> exact hdead
      | store hash filename target file missing hpc ht =>
          rw [ht] at hdead
          exact absurd hdead halive
      | close hpc hclosed hpending ht => rw [ht] at hdead; exact absurd hdead halive
  | _ => exact absurd hdead halive

/-- A terminated peer has a status that is not 0. -/
theorem Sound.exitStatus_of_step (h : Sound cfg scans p)
    (hst : p.step cfg up down a = some (q, up', down')) (hdead : q.terminated = true) :
    q.host.logger.exitStatus ≠ 0 := by
  obtain ⟨⟨report, hlogger⟩, _⟩ := h.broken_of_step hst hdead
  rw [hlogger]
  exact Logger.exitStatus_fatal _ _

/-- **When `Sync` has returned** both threads had come to their ends, and
`Fatal` was not called. -/
def ReturnedClosed (p : Peer) : Prop :=
  p.returned = true → p.upload = .closed ∧ p.download = .closed ∧ p.terminated = false

theorem Sound.returnedClosed_step (h : Sound cfg scans p)
    (hst : p.step cfg up down a = some (q, up', down')) : q.ReturnedClosed := by
  obtain ⟨hlive, hrun, _, _, hmove, _⟩ := h.move_of_step hst
  cases hmove with
  | «return» hup hdown => exact fun _ => ⟨hup, hdown, hlive⟩
  | _ => exact fun hret => absurd (hrun.symm.trans hret) (by simp)

/-- Once the update loop is over, `Contains` answers for ever the same. -/
theorem Sound.contains_step (h : Sound cfg scans p)
    (hst : p.step cfg up down a = some (q, up', down')) (hne : p.download ≠ .update) :
    q.contains = p.contains := by
  funext hash
  rw [contains, contains, (h.hasher_frozen (h.downloading hne) hst).1]

/-- What is offered is on the list, in its order. -/
theorem Sound.offered_sublist (h : Sound cfg scans p) :
    p.pipe.offered.flatten.Sublist p.pipe.hasher.entries := by
  by_cases hupd : p.receiving.updated = true
  · rw [(h.offers hupd).offered]
    exact List.filter_sublist.trans (List.take_sublist _ _)
  · have hbefore : p.upload.BeforeUpdate := by
      by_contra hne
      exact hupd (h.updated.mpr hne)
    rw [(h.waiting hbefore).2.2.1]
    exact List.nil_sublist _

end Peer
end Jpgsync
