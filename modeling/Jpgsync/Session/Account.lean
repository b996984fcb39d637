import Jpgsync.Session
import Jpgsync.Session.Flow

/-!
# Session — Account

Where every entry of a direction is: offered and answered or not, read and
received, in flight, or still to be read. `Aligned` says that the account
balances; it is kept by every step of either peer after which the uploading
one is still running, as long as offers are answered exactly
(`AnswersExactly`) and the size of every file fits its four bytes
(`SizeFits`).
-/

namespace Jpgsync

open UploadPc DownloadPc

namespace Peer

/-- What a sound peer's uploader can be doing, once its sizes fit. -/
theorem Sound.upstream {cfg : Config} {scans : List Scan} {p : Peer} (h : Sound cfg scans p)
    (hsize : ∀ n, announced p.upload = some n → n ≠ 0 ∧ n < 2 ^ 32) : Upstream p.upload := by
  have hoffer : ∀ {missing}, p.pipe.uploader = .offer missing →
      missing ≠ [] ∧ missing.length ≤ syncHashesPerPacket := by
    intro missing hup
    have hfacts := h.inv.facts
    simpa [Pipeline.UploaderFacts, hup] using hfacts
  refine ⟨?_, fun bytes missing hpc hnil => ?_, hsize⟩
  · by_cases hround : p.upload.InRound
    · obtain ⟨missing, hup, _, hask⟩ := h.round hround
      rcases hask with hask | hask <;> rw [hask]
      · exact Nat.zero_le _
      · exact (hoffer hup).2
    · cases hpc : p.upload <;> first
        | exact Nat.zero_le _
        | exact absurd (show p.upload.InRound by rw [hpc]; trivial) hround
  · have hround : p.upload.InRound := by rcases hpc with hpc | hpc <;> rw [hpc] <;> trivial
    obtain ⟨missing', hup, hbounds, _⟩ := h.round hround
    have hlen : missing.length = missing'.length := by
      rcases hpc with hpc | hpc <;> rw [hpc] at hbounds <;> exact hbounds.1
    rw [hnil] at hlen
    exact (hoffer hup).1 (List.length_eq_zero_iff.mp hlen.symm)

end Peer

/-- **The account of a direction.** -/
structure Account (contains : ExifHash → Bool) (X Y : Peer) (L : Link)
    (received inflight : List SentFile) (todo opening answered : List Entry) : Prop where
  flow : Flow contains X.upload Y.download L.offers L.replies inflight todo opening
  offered : X.pipe.offered.flatten = answered ++ opening
  uploads : X.uploads = received ++ inflight
  sent : X.uploads.map Prod.fst ++ todo = missingOf contains answered
  accepted : Y.accepted = (missingOf contains answered).map Entry.hash
  awaited : awaited Y.download = (inflight.map Prod.fst ++ todo).map Entry.hash
  downloads : Y.downloads.map (fun d => (d.hash, d.filename, d.file)) =
    received.map fun f => (f.1.hash, sentName f.1.path, f.2)

/-- **The two ends of a direction are aligned.** -/
structure Aligned (SX : Site) (X : Peer) (SY : Site) (Y : Peer) (L : Link) : Prop where
  sound : X.Sound SX.cfg SX.scans ∧ Y.Sound SY.cfg SY.scans
  announced : ∀ n, announced X.upload = some n → n ≠ 0 ∧ n < 2 ^ 32
  sizes : ∀ f ∈ X.uploads, f.SizeOk
  closed : L.offers.closed = true ↔ X.upload = .closed
  account : ∃ received inflight todo opening answered,
    Account Y.contains X Y L received inflight todo opening answered

namespace Aligned

variable {SX SY : Site} {X Y X' Y' : Peer} {L M L' M' : Link} {a : Peer.Act}

theorem start (SX SY : Site) : Aligned SX (.start SX.scans SX.disk) SY
    (.start SY.scans SY.disk) .start where
  sound := ⟨Peer.sound_start _ _ _, Peer.sound_start _ _ _⟩
  announced := fun n hn => by cases hn
  sizes := fun f hf => absurd hf List.not_mem_nil
  closed := by simp [Link.start, Peer.start]
  account := ⟨[], [], [], [], [],
    .waiting rfl id rfl rfl, rfl, rfl, rfl, rfl, rfl, rfl⟩

/-! ## The uploading peer -/

/-- What only concerns the uploading end: the other fields stay. -/
theorem upTo (h : Aligned SX X SY Y L) (hsound : X'.Sound SX.cfg SX.scans)
    (huploads : X'.uploads = X.uploads)
    (hannounced : ∀ n, UploadPc.announced X'.upload = some n → n ≠ 0 ∧ n < 2 ^ 32)
    (hclosed : L'.offers.closed = true ↔ X'.upload = .closed)
    (haccount : ∀ {received inflight todo opening answered},
      Account Y.contains X Y L received inflight todo opening answered →
      ∃ opening', Flow Y.contains X'.upload Y.download L'.offers L'.replies inflight todo opening' ∧
        X'.pipe.offered.flatten = answered ++ opening') :
    Aligned SX X' SY Y L' where
  sound := ⟨hsound, h.sound.2⟩
  announced := hannounced
  sizes := by rw [huploads]; exact h.sizes
  closed := hclosed
  account := by
    obtain ⟨received, inflight, todo, opening, answered, hA⟩ := h.account
    obtain ⟨opening', hflow, hoffered⟩ := haccount hA
    exact ⟨received, inflight, todo, opening', answered, hflow, hoffered,
      huploads.trans hA.uploads, by rw [huploads]; exact hA.sent, hA.accepted, hA.awaited,
      hA.downloads⟩

/-- What an emission leaves of the ends of its streams. -/
theorem emission_closed {k : Nat} {s t : Emission} (h : Emission.Move k s t)
    (hround : s.pc.InRound) : t.output.closed = s.output.closed ∧
      t.input.closed = s.input.closed ∧ t.pc ≠ .closed := by
  cases h with
  | write hw =>
      refine ⟨hw.closed, by rw [hw.input], fun heq => ?_⟩
      have hin := hw.inRound
      rw [heq] at hin
      exact hin
  | readMask buf buf' missing hpc ht hcons hclosed =>
      exact ⟨by rw [ht], hclosed, by rw [ht]; simp⟩
  | fail report hbroken ht =>
      rw [ht]
      refine ⟨rfl, rfl, fun heq => ?_⟩
      rw [show s.pc = .closed from heq] at hround
      exact hround
  | decode buf missing hpc hlen ht => rw [ht]; exact ⟨rfl, rfl, by simp⟩
  | begin cursor e rest hpc hwants ht => rw [ht]; exact ⟨rfl, rfl, by simp⟩
  | skip cursor e rest hpc hwants ht => rw [ht]; exact ⟨rfl, rfl, by simp⟩
  | openFile l contents hpc hopen ht => rw [ht]; exact ⟨rfl, rfl, by simp⟩
  | read fileSize l hpc contents hcontents ht => rw [ht]; exact ⟨rfl, rfl, by simp⟩

/-- **A step of the uploading peer** that does not call `Fatal`. -/
theorem up (h : Aligned SX X SY Y L)
    (hfits : ∀ k, a = .upload k → X.upload.SizeFits X.host.disk)
    (hst : X.step SX.cfg L M a = some (X', L', M')) (hlive : X'.terminated = false) :
    Aligned SX X' SY Y L' := by
  have hsound := h.sound.1.step hst
  obtain ⟨hmove, _⟩ := h.sound.1.ends_of_step hst hlive
  cases hmove with
  | other hupload huploads hoffered hoffers hreplies =>
      refine h.upTo hsound huploads (by rw [hupload]; exact h.announced)
        (by rw [hoffers, hupload]; exact h.closed) fun hA => ?_
      rw [hupload, hoffers, hreplies, hoffered]
      exact ⟨_, hA.flow, hA.offered⟩
  | noUpdate hpc hclosed hpending hdead _ _ _ _ =>
      rw [hlive] at hdead
      cases hdead
  | waited byte hpc hupload huploads hoffered hoffers hpending hclosed =>
      refine h.upTo hsound huploads (by rw [hupload]; intro n hn; cases hn)
        (by rw [hoffers, hupload, h.closed, hpc]; simp) fun hA => ?_
      rw [hupload, hoffers, hoffered]
      exact ⟨_, (hpc ▸ hA.flow).waited hpending, hA.offered⟩
  | idle hpc hupload hopen huploads hoffered hoffers hreplies =>
      refine h.upTo hsound huploads ?_ (by rw [hoffers, h.closed]; simp [hopen]) fun hA => ?_
      · intro n hn
        cases hq : X'.upload <;> rw [hq] at hn hupload <;> first | exact hupload.1.elim | cases hn
      · rw [hoffers, hreplies, hoffered]
        exact ⟨_, hA.flow.idle hpc hupload.1, hA.offered⟩
  | leave hpc hupload huploads hoffered hoffers hreplies =>
      refine h.upTo hsound huploads (by rw [hupload]; intro n hn; cases hn)
        (by rw [hoffers, hupload]; simp) fun hA => ?_
      rw [hupload, hreplies, hoffered]
      have hflow := hA.flow.idle (by rw [hpc]; trivial) (show UploadPc.closed.Idle from trivial)
      refine ⟨_, ?_, hA.offered⟩
      cases hflow with
      | waiting hx => cases hx
      | notified byte hx => cases hx
      | answered mask hask => exact absurd rfl hask
      | flowing _ _ hx hy hxa hya hr htodo hbytes =>
          exact .flowing (x := .closed) _ _ hx hy hxa hya hr htodo
            (by rw [hoffers, Fifo.pending_close]; exact hbytes)
  | beginRound missing hpc hupload huploads hoffered hoffers hreplies =>
      refine h.upTo hsound huploads (by rw [hupload]; intro n hn; cases hn)
        (by rw [hoffers, hupload, h.closed, hpc]; simp) fun hA => ?_
      obtain ⟨hnil, hflow⟩ := Flow.beginRound missing (hpc ▸ hA.flow)
      rw [hupload, hoffers, hreplies, hoffered]
      exact ⟨missing, hflow, by simp [hA.offered, hnil]⟩
  | emission k r ha hround hr hupload huploads hhost hoffered hoffers hreplies =>
      -- an emission moves entries from `todo` to the files in flight
      obtain ⟨received, inflight, todo, opening, answered, hA⟩ := h.account
      rcases Flow.emission hr (h.sound.1.upstream h.announced) hA.flow with
        ⟨report, ht, _⟩ | ⟨new, todo', hflow, hup, hnew, hsizes⟩
      · rw [Peer.terminated, hhost, ht] at hlive
        cases hlive
      · obtain ⟨hcup, _, hpc⟩ := emission_closed hr hround
        have hopen : X.upload ≠ .closed := by
          intro heq
          rw [heq] at hround
          exact hround
        have hup' : X'.uploads = X.uploads ++ new := huploads.trans hup
        refine ⟨⟨hsound, h.sound.2⟩, ?_, ?_, ?_,
          received, inflight ++ new, todo', opening, answered, ?_, ?_, ?_, ?_, hA.accepted, ?_,
          hA.downloads⟩
        · rw [hupload]
          exact announced_step hr h.announced (hfits k ha)
        · intro f hf
          rw [hup'] at hf
          rcases List.mem_append.mp hf with hf | hf
          · exact h.sizes f hf
          · obtain ⟨hne, hlt⟩ := h.announced _ (hsizes f hf)
            exact ⟨fun hnil => hne (by rw [hnil]; rfl), hlt⟩
        · rw [hoffers, hcup, hupload]
          exact h.closed.trans ⟨fun hc => absurd hc hopen, fun hc => absurd hc hpc⟩
        · rw [hupload, hoffers, hreplies]
          exact hflow
        · rw [hoffered]
          exact hA.offered
        · rw [hup', hA.uploads, List.append_assoc]
        · rw [hup', List.map_append, List.append_assoc, hnew]
          exact hA.sent
        · rw [hA.awaited, List.map_append (f := Prod.fst), List.append_assoc, hnew]

/-! ## The downloading peer -/

/-- What a step of the receive loop leaves of the ends of its streams. -/
theorem reception_closed {contains : ExifHash → Bool} {dir : Bytes} {k : Nat} {s t : Reception}
    (h : Reception.Move contains dir k s t) (hwhole : ¬ Reception.Broken s) :
    t.input.closed = s.input.closed ∧
      ((s.pc ≠ .closed ∧ t.pc ≠ .closed ∧ t.output.closed = s.output.closed) ∨
        (s.input.closed = true ∧ t.pc = .closed ∧ t.output.closed = true)) := by
  cases h with
  | read hr => exact ⟨hr.closed, Or.inl ⟨hr.before.1, hr.notClosed, by rw [hr.output]⟩⟩
  | reply rest rest' missing hpc hrest ht hpending hclosed =>
      exact ⟨by rw [ht], Or.inl ⟨by simp [hpc], by rw [ht]; simp, hclosed⟩⟩
  | answer hashCount buf a hpc ha ht =>
      rw [ht]
      exact ⟨rfl, Or.inl ⟨by simp [hpc], by simp, rfl⟩⟩
  | create hash filename fileSize missing hpc ht =>
      rw [ht]
      exact ⟨rfl, Or.inl ⟨by simp [hpc], by simp [Reception.create], rfl⟩⟩
  | store hash filename target file missing hpc ht =>
      rw [ht]
      exact ⟨rfl, Or.inl ⟨by simp [hpc], by simp, rfl⟩⟩
  | close hpc hclosed hpending ht =>
      rw [ht]
      exact ⟨rfl, Or.inr ⟨hclosed, rfl, rfl⟩⟩
  | fail report hbroken => exact absurd hbroken hwhole

/-- While the remote peer is in its update loop nothing is on the account,
whatever its index is. -/
theorem account_update (h : Aligned SX X SY Y L) (hy : ¬ InLoop Y.download)
    (contains : ExifHash → Bool) :
    X.upload = .wait ∧ L.offers.pending = [] ∧ L.replies.pending = [] ∧
      Account contains X Y L [] [] [] [] [] := by
  obtain ⟨received, inflight, todo, opening, answered, hA⟩ := h.account
  obtain ⟨hx, ho, hr, rfl, rfl, rfl⟩ := hA.flow.before hy
  have hoffered := (h.sound.1.waiting (by rw [hx]; trivial)).2.2.1
  have hanswered : answered = [] := by
    have := hA.offered
    rw [hoffered, List.append_nil] at this
    exact this.symm
  subst hanswered
  have huploads : X.uploads = [] := by
    have := hA.sent
    rw [List.append_nil] at this
    exact List.map_eq_nil_iff.mp this
  have hreceived : received = [] := by
    have := hA.uploads
    rw [huploads, List.append_nil] at this
    exact this.symm
  subst hreceived
  exact ⟨hx, ho, hr, .waiting hx hy ho hr, hA.offered, hA.uploads, by rw [huploads]; rfl,
    hA.accepted, hA.awaited, hA.downloads⟩

/-- The receive loop of an aligned direction does not call `Fatal`. -/
theorem not_broken (h : Aligned SX X SY Y L) : ¬ Reception.Broken (Y.reception L) := by
  obtain ⟨received, inflight, todo, opening, answered, hA⟩ := h.account
  have hinflight : ∀ f ∈ inflight, f.SizeOk := fun f hf =>
    h.sizes f (by rw [hA.uploads]; exact List.mem_append_right _ hf)
  exact Flow.not_broken (s := Y.reception L) h.sound.2.downloadBounds
    (h.sound.1.upstream h.announced) hA.flow hA.awaited hinflight h.closed.mp

/-- What a step does to the downloading end keeps the account. -/
theorem downMove (h : Aligned SX X SY Y L)
    (hanswers : ∀ k, a = .download k → Y.download.AnswersExactly Y.contains)
    (hsound : Y'.Sound SY.cfg SY.scans) (hsame : Y.download ≠ .update → Y'.contains = Y.contains)
    (hmove : Peer.DownMove SY.cfg Y L a Y' L') : Aligned SX X SY Y' L' := by
  cases hmove with
  | other hdownload haccepted hdownloads hhost hoffers hreplies =>
      refine ⟨⟨h.sound.1, hsound⟩, h.announced, h.sizes, by rw [hoffers]; exact h.closed, ?_⟩
      by_cases hupdate : Y.download = .update
      -- still hashing: the account is empty, so it balances for the grown index too
      · have hy : ¬ InLoop Y.download := by rw [hupdate]; exact id
        obtain ⟨_, _, _, hA⟩ := h.account_update hy Y'.contains
        exact ⟨[], [], [], [], [], by rw [hdownload, hoffers, hreplies]; exact hA.flow,
          hA.offered, hA.uploads, hA.sent, haccepted.trans hA.accepted,
          by rw [hdownload]; exact hA.awaited, by rw [hdownloads]; exact hA.downloads⟩
      · obtain ⟨received, inflight, todo, opening, answered, hA⟩ := h.account
        rw [hsame hupdate]
        exact ⟨received, inflight, todo, opening, answered,
          by rw [hdownload, hoffers, hreplies]; exact hA.flow, hA.offered, hA.uploads, hA.sent,
          haccepted.trans hA.accepted, by rw [hdownload]; exact hA.awaited,
          by rw [hdownloads]; exact hA.downloads⟩
  | endUpdate hpc hdownload haccepted hdownloads hhost hoffers hreplies =>
      have hy : ¬ InLoop Y.download := by rw [hpc]; exact id
      obtain ⟨hx, ho, hr, hA⟩ := h.account_update hy Y'.contains
      refine ⟨⟨h.sound.1, hsound⟩, h.announced, h.sizes, by rw [hoffers]; exact h.closed,
        [], [], [], [], [], ?_, hA.offered, hA.uploads, hA.sent,
        haccepted.trans hA.accepted, by rw [hdownload]; rfl, by rw [hdownloads]; exact hA.downloads⟩
      rw [hdownload, hoffers, hreplies]
      exact .waiting hx id ho hr
  | notify byte hpc hdownload haccepted hdownloads hhost hoffers hreplies =>
      have hy : ¬ InLoop Y.download := by rw [hpc]; exact id
      obtain ⟨hx, ho, hr, hA⟩ := h.account_update hy Y'.contains
      refine ⟨⟨h.sound.1, hsound⟩, h.announced, h.sizes, by rw [hoffers]; exact h.closed,
        [], [], [], [], [], ?_, hA.offered, hA.uploads, hA.sent,
        haccepted.trans hA.accepted, by rw [hdownload]; rfl, by rw [hdownloads]; exact hA.downloads⟩
      rw [hdownload, hoffers, hreplies]
      exact .notified byte hx trivial rfl rfl ho (by rw [Fifo.pending_push, hr]; rfl)
  | reception k r ha hpc hr hdownload haccepted hdownloads hhost hoffers hreplies =>
      obtain ⟨received, inflight, todo, opening, answered, hA⟩ := h.account
      have hinflight : ∀ f ∈ inflight, f.SizeOk := fun f hf =>
        h.sizes f (by rw [hA.uploads]; exact List.mem_append_right _ hf)
      obtain ⟨got, inflight', answered', opening', hin, hopen, hflow, hawait, hacc, hdown⟩ :=
        Flow.reception hr h.sound.2.downloadBounds (h.sound.1.upstream h.announced) hA.flow
          hA.awaited hinflight h.closed.mp (hanswers k ha)
      have hclosed : L'.offers.closed = L.offers.closed := by
        rw [hoffers]
        exact (reception_closed hr h.not_broken).1
      have hsame' := hsame hpc.1
      refine ⟨⟨h.sound.1, hsound⟩, h.announced, h.sizes, by rw [hclosed]; exact h.closed,
        received ++ got, inflight', todo ++ missingOf Y.contains answered', opening',
        answered ++ answered', ?_, ?_, ?_, ?_, ?_, ?_, ?_⟩
      · rw [hsame', hdownload, hoffers, hreplies]
        exact hflow
      · rw [hA.offered, hopen, List.append_assoc]
      · rw [hA.uploads, hin, List.append_assoc]
      · rw [hsame', ← List.append_assoc, hA.sent, missingOf_append]
      · rw [hsame', haccepted, hacc, missingOf_append, List.map_append]
        exact congrArg (· ++ _) hA.accepted
      · rw [hdownload]
        exact hawait
      · rw [hdownloads, hdown, List.map_append]
        exact congrArg (· ++ _) hA.downloads

/-- **A step of the downloading peer.** Its receive loop does not call
`Fatal`; where another of its threads does, only ends of streams close. -/
theorem down (h : Aligned SX X SY Y L)
    (hanswers : ∀ k, a = .download k → Y.download.AnswersExactly Y.contains)
    (hst : Y.step SY.cfg M L a = some (Y', M', L')) : Aligned SX X SY Y' L' := by
  obtain ⟨up₁, down₁, hmove, hends⟩ := h.sound.2.upToEnds_of_step hst
  have hkept : Aligned SX X SY Y' down₁ :=
    h.downMove hanswers (h.sound.2.step hst) (h.sound.2.contains_step hst) hmove.downMove
  -- `Fatal` in another thread may have closed the replies
  obtain ⟨received, inflight, todo, opening, answered, hA⟩ := hkept.account
  have hflow :
      Flow Y'.contains X.upload Y'.download L'.offers L'.replies inflight todo opening := by
    rw [hends.offers]
    rcases hends.replies with hr | hr <;> rw [hr]
    · exact hA.flow
    · exact hA.flow.closeReplies
  exact ⟨hkept.sound, hkept.announced, hkept.sizes, by rw [hends.offers]; exact hkept.closed,
    received, inflight, todo, opening, answered, { hA with flow := hflow }⟩

end Aligned

/-! ## The ends of the streams -/

/-- **In which order a direction ends**: its uploading side first. -/
structure Ends (X Y : Peer) (L : Link) : Prop where
  closed : L.replies.closed = true ↔ Y.download = .closed
  order : Y.download = .closed → X.upload = .closed

namespace Ends

variable {SX SY : Site} {X Y X' Y' : Peer} {L M L' M' : Link} {a : Peer.Act}

theorem start (SX SY : Site) :
    Ends (.start SX.scans SX.disk) (.start SY.scans SY.disk) .start where
  closed := by simp [Link.start, Peer.start]
  order := fun h => by cases h

theorem up (h : Ends X Y L) (hsound : X.Sound SX.cfg SX.scans)
    (hst : X.step SX.cfg L M a = some (X', L', M')) (hlive : X'.terminated = false) :
    Ends X' Y L' := by
  -- an uploader that has left its loop does not move any more
  have hkeep : L'.replies.closed = L.replies.closed →
      (X.upload = .closed → X'.upload = .closed) → Ends X' Y L' :=
    fun hr hx => ⟨by rw [hr]; exact h.closed, fun hy => hx (h.order hy)⟩
  cases (hsound.ends_of_step hst hlive).1 with
  | other hupload huploads hoffered hoffers hreplies =>
      exact hkeep (by rw [hreplies]) fun hx => hupload.trans hx
  | noUpdate hpc hclosed hpending hdead _ _ _ _ =>
      rw [hlive] at hdead
      cases hdead
  | waited byte hpc hupload huploads hoffered hoffers hpending hclosed =>
      exact hkeep hclosed (by simp [hpc])
  | idle hpc hupload hopen huploads hoffered hoffers hreplies =>
      exact hkeep (by rw [hreplies]) fun hx => absurd hx hopen.1
  | leave hpc hupload huploads hoffered hoffers hreplies =>
      exact hkeep (by rw [hreplies]) fun _ => hupload
  | beginRound missing hpc hupload huploads hoffered hoffers hreplies =>
      exact hkeep (by rw [hreplies]) (by simp [hpc])
  | emission k r ha hround hr hupload huploads hhost hoffered hoffers hreplies =>
      refine hkeep (by rw [hreplies]; exact (Aligned.emission_closed hr hround).2.1) fun hx => ?_
      rw [hx] at hround
      exact hround.elim

theorem down (h : Ends X Y L) (haligned : Aligned SX X SY Y L)
    (hst : Y.step SY.cfg M L a = some (Y', M', L')) (hlive : Y'.terminated = false) :
    Ends X Y' L' := by
  have hopen : L'.replies.closed = L.replies.closed → Y.download ≠ .closed →
      Y'.download ≠ .closed → Ends X Y' L' := by
    intro hr hy hy'
    refine ⟨?_, fun hc => absurd hc hy'⟩
    rw [hr]
    exact h.closed.trans ⟨fun hc => absurd hc hy, fun hc => absurd hc hy'⟩
  cases (haligned.sound.2.ends_of_step hst hlive).2 with
  | other hdownload haccepted hdownloads hhost hoffers hreplies =>
      exact ⟨by rw [hreplies, hdownload]; exact h.closed, by rw [hdownload]; exact h.order⟩
  | endUpdate hpc hdownload haccepted hdownloads hhost hoffers hreplies =>
      exact hopen (by rw [hreplies]) (by simp [hpc]) (by simp [hdownload])
  | notify byte hpc hdownload haccepted hdownloads hhost hoffers hreplies =>
      exact hopen (by rw [hreplies]; rfl) (by simp [hpc]) (by simp [hdownload])
  | reception k r ha hpc hr hdownload haccepted hdownloads hhost hoffers hreplies =>
      rcases (Aligned.reception_closed hr haligned.not_broken).2 with ⟨hs, ht, hc⟩ | ⟨hend, ht, hc⟩
      · exact hopen (by rw [hreplies]; exact hc) hs (by rw [hdownload]; exact ht)
      · exact ⟨by rw [hreplies, hdownload]; simp [ht, hc], fun _ => haligned.closed.mp hend⟩

end Ends
end Jpgsync
