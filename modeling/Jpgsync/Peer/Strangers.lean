import Jpgsync.Peer.Environment
import Jpgsync.Peer.Images

/-!
# Peer — Strangers

What a peer gives and takes when the other side is no peer at all: it may
send any bytes and any update packets, at any time, and answer anything.
The uploader still reads images of its own directory only, each at most
once, and sends nothing but their bytes; the downloader still receives only
images that the directory lacks, and changes no file that is not empty.
-/

namespace Jpgsync

open UploadPc DownloadPc

theorem uploadLoop_sublist {c : MaskCursor} {es todo : List Entry}
    (h : uploadLoop c es = some todo) : todo.Sublist es := by
  induction es generalizing c todo with
  | nil =>
      cases h
      exact List.Sublist.refl _
  | cons e es ih =>
      rw [uploadLoop] at h
      split at h
      · cases h
      · obtain ⟨rest, hrest, rfl⟩ := Option.map_eq_some_iff.mp h
        exact (ih hrest).cons_cons e
      · exact (ih h).cons e

/-- A bitmask with a bit for every entry of the offer is gone through. -/
theorem uploadLoop_isSome {buf : Bytes} {missing : List Entry}
    (h : buf.length = foundBitmaskSize missing.length) :
    ∃ todo, uploadLoop (.start buf) missing = some todo := by
  have hroom := foundBitmaskSize_room missing.length
  rw [← h] at hroom
  exact ⟨_, uploadLoop_spec buf missing 0 (by rwa [Nat.zero_add])⟩

/-! ## What is sent -/

/-- The bytes sent for a file are the first ones of what it holds, and
zeros for those that were not delivered. -/
def SentFrom (disk : Disk) (f : SentFile) : Prop :=
  ∃ contents k, contents ≠ [] ∧ disk.contents f.1.path = some contents ∧
    f.2 = readBuffer contents contents.length k

theorem SentFrom.keep {disk disk' : Disk} {f : SentFile} (h : SentFrom disk f)
    (hkeep : Disk.Keeps disk disk') : SentFrom disk' f := by
  obtain ⟨contents, k, hne, hfile, hbytes⟩ := h
  exact ⟨contents, k, hne, hkeep.kept _ _ hne hfile, hbytes⟩

/-- The file whose size was announced is the next one to be read. -/
def Announces (disk : Disk) (pc : UploadPc) : Prop :=
  ∀ fileSize, announced pc = some fileSize → ∃ e rest contents,
    UploadPc.todo pc = some (e :: rest) ∧ contents ≠ [] ∧
      disk.contents e.path = some contents ∧ contents.length = fileSize

/-- **What an uploader sends**, of these entries. -/
structure Sending (offered : List Entry) (disk : Disk) (pc : UploadPc) (uploads : List SentFile) :
    Prop where
  listed : ∃ todo, UploadPc.todo pc = some todo ∧
    (uploads.map Prod.fst ++ (asking pc ++ todo)).Sublist offered
  announces : Announces disk pc
  sent : ∀ f ∈ uploads, SentFrom disk f

namespace Sending

variable {offered : List Entry} {disk disk' : Disk} {pc pc' : UploadPc} {uploads : List SentFile}
  {k : Nat} {s t : Emission}

/-- Nothing is read, and no round is begun. -/
theorem rest (h : Sending offered disk pc uploads) (hkeep : Disk.Keeps disk disk')
    (hpc : pc' = pc ∨ (UploadPc.todo pc' = some [] ∧ asking pc' = [] ∧ announced pc' = none)) :
    Sending offered disk' pc' uploads := by
  have hsent : ∀ f ∈ uploads, SentFrom disk' f := fun f hf => (h.sent f hf).keep hkeep
  rcases hpc with rfl | ⟨htodo, hasking, hannounced⟩
  · refine ⟨h.listed, fun fileSize hsize => ?_, hsent⟩
    obtain ⟨e, rest, contents, htodo, hne, hfile, hlen⟩ := h.announces fileSize hsize
    exact ⟨e, rest, contents, htodo, hne, hkeep.kept _ _ hne hfile, hlen⟩
  · obtain ⟨todo, -, hsub⟩ := h.listed
    refine ⟨⟨[], htodo, ?_⟩, by simp [Announces, hannounced], hsent⟩
    rw [hasking, List.append_nil, List.append_nil]
    exact (List.sublist_append_left _ _).trans hsub

/-- A new round offers entries that no earlier one has offered. -/
theorem beginRound (h : Sending offered disk pc uploads) (missing : List Entry) :
    Sending (offered ++ missing) disk (.offer (offerBytes missing) missing) uploads := by
  obtain ⟨todo, -, hsub⟩ := h.listed
  refine ⟨⟨[], rfl, ?_⟩, by simp [Announces, announced], h.sent⟩
  rw [List.append_nil]
  exact ((List.sublist_append_left _ _).trans hsub).append (List.Sublist.refl missing)

/-- **A step within a round**: only `read` takes a file, the next one of
the answer. -/
theorem emission (h : Sending offered s.host.disk s.pc s.uploads) (hst : Emission.Move k s t) :
    Sending offered t.host.disk t.pc t.uploads := by
  obtain ⟨todo, htodo, hsub⟩ := h.listed
  cases hst with
  | write hw =>
      rw [hw.host, hw.uploads]
      refine ⟨⟨todo, hw.todo.trans htodo, by rwa [hw.asking]⟩, ?_, h.sent⟩
      rw [Announces, hw.announced, hw.todo]
      exact h.announces
  | fail report hbroken ht =>
      rw [ht]
      exact h
  | readMask buf buf' missing hpc ht =>
      rw [hpc] at htodo hsub
      rw [ht]
      exact ⟨⟨todo, htodo, hsub⟩, by simp [Announces, announced], h.sent⟩
  | decode buf missing hpc hlen ht =>
      rw [hpc] at htodo hsub
      cases htodo
      obtain ⟨chosen, hchosen⟩ := uploadLoop_isSome hlen
      rw [ht]
      refine ⟨⟨chosen, hchosen, ?_⟩, by simp [Announces, announced], h.sent⟩
      rw [List.append_nil] at hsub
      exact ((List.Sublist.refl _).append (uploadLoop_sublist hchosen)).trans hsub
  | begin cursor e rest hpc hwants ht =>
      rw [hpc, UploadPc.todo, uploadLoop, hwants] at htodo
      rw [hpc] at hsub
      rw [ht]
      exact ⟨⟨todo, htodo, hsub⟩, by simp [Announces, announced], h.sent⟩
  | skip cursor e rest hpc hwants ht =>
      rw [hpc, UploadPc.todo, uploadLoop, hwants] at htodo
      rw [hpc] at hsub
      rw [ht]
      exact ⟨⟨todo, htodo, hsub⟩, by simp [Announces, announced], h.sent⟩
  | openFile l contents hpc hopen ht =>
      rw [hpc] at htodo hsub
      rw [ht]
      refine ⟨⟨todo, htodo, hsub⟩, fun fileSize hsize => ?_, h.sent⟩
      obtain ⟨hfile, hlen⟩ := Option.filter_eq_some_iff.mp hopen
      rw [Disk.openIn] at hfile
      split at hfile
      · cases hfile
      · obtain ⟨rest, hrest, -⟩ := Option.map_eq_some_iff.mp htodo
        refine ⟨l.entry, rest, contents, ?_, ?_, hfile, Option.some.inj hsize⟩
        · rw [UploadPc.todo, hrest]
          rfl
        · rintro rfl
          simp at hlen
  | read fileSize l hpc contents hcontents ht =>
      obtain ⟨e, rest, held, hnext, hne, hfile, hlen⟩ := h.announces fileSize (by rw [hpc]; rfl)
      rw [hpc] at htodo hsub hnext
      obtain ⟨rest', hrest', rfl⟩ := Option.map_eq_some_iff.mp htodo
      rw [UploadPc.todo, hrest'] at hnext
      cases hnext
      rw [hfile, Option.getD_some] at hcontents
      rw [ht]
      refine ⟨⟨rest, hrest', ?_⟩, by simp [Announces, announced], fun f hf => ?_⟩
      · simpa [asking] using hsub
      · rcases List.mem_append.mp hf with hf | hf
        · exact h.sent f hf
        · rw [List.mem_singleton.mp hf]
          exact ⟨held, k, hne, hfile, by rw [hcontents, hlen]⟩

end Sending

/-! ## What is received -/

/-- **What a downloader receives**: the hashes it has accepted are those it
has received and those it waits for, in this order, and none was found. -/
structure Taking (contains : ExifHash → Bool) (pc : DownloadPc) (accepted : List ExifHash)
    (downloads : List Download) : Prop where
  account : accepted = downloads.map Download.hash ++ awaited pc
  missing : ∀ hash ∈ accepted, contains hash = false

/-- The file that is open for a download is empty. -/
def OpenedEmpty (disk : Disk) (pc : DownloadPc) : Prop :=
  ∀ hash filename path, opened pc = some (hash, filename, some path) →
    disk.contents path = some []

section

variable {contains : ExifHash → Bool} {dir : Bytes} {k : Nat} {s t : Reception}

/-- **A step of the receive loop** that does not end the process. -/
theorem Taking.reception (h : Taking contains s.pc s.accepted s.downloads) (hb : InBounds s.pc)
    (hst : Reception.Move contains dir k s t) (hlive : t.host.logger.terminated = false) :
    Taking contains t.pc t.accepted t.downloads := by
  have haccount := h.account
  cases hst with
  | read hr =>
      rw [hr.accepted, hr.downloads]
      exact ⟨by rw [hr.awaited]; exact haccount, h.missing⟩
  | fail report hbroken ht =>
      rw [ht] at hlive
      cases hlive
  | reply rest rest' missing hpc hrest ht =>
      rw [hpc] at haccount
      rw [ht]
      exact ⟨haccount, h.missing⟩
  | close hpc hclosed hpending ht =>
      rw [hpc] at haccount
      rw [ht]
      exact ⟨haccount, h.missing⟩
  | create hash filename fileSize missing hpc ht =>
      rw [hpc] at haccount
      rw [ht]
      exact ⟨haccount, h.missing⟩
  | store hash filename target file missing hpc ht =>
      rw [hpc] at haccount
      rw [ht]
      exact ⟨by simpa [awaited] using haccount, h.missing⟩
  | answer hashCount buf a hpc ha ht =>
      rw [hpc] at haccount hb
      have hmissing : ∀ hash ∈ a.missingHashes, contains hash = false := by
        obtain ⟨hle, hlen⟩ := hb
        have hroom := foundBitmaskSize_room hashCount.toNat
        have hsize := foundBitmaskSize_mono hle
        obtain ⟨a', ha', -, hmissing, -⟩ := @answerOffer_spec contains sizeofFoundBitmask
          (ExifHash.ofDigests hashCount.toNat buf) (by
            rw [RecordCodec.length_unpack]
            exact hroom.trans (Nat.mul_le_mul_right _ hsize))
        rw [ExifHash.digests_ofDigests hlen, ha] at ha'
        cases ha'
        intro hash hmem
        rw [hmissing] at hmem
        simpa using (List.mem_filter.mp hmem).2
      rw [ht]
      refine ⟨?_, fun hash hmem => ?_⟩
      · rw [haccount]
        simp [awaited]
      · rcases List.mem_append.mp hmem with hmem | hmem
        · exact h.missing hash hmem
        · exact hmissing hash hmem

/-- The step that calls `Fatal` does nothing else that lasts. -/
theorem Reception.fatal_frame (hb : InBounds s.pc) (hst : s.step contains dir k = some t)
    (hlive : s.host.logger.terminated = false) (hdead : t.host.logger.terminated = true) :
    t.host.disk = s.host.disk ∧ t.accepted = s.accepted ∧ t.downloads = s.downloads := by
  have hsame : t.host.logger.terminated ≠ s.host.logger.terminated := by simp [hlive, hdead]
  cases Reception.branch_of_step hb hst with
  | short hf hread report ht => rw [ht]; exact ⟨rfl, rfl, rfl⟩
  | noName hash missing hpc hread ht => rw [ht]; exact ⟨rfl, rfl, rfl⟩
  | invalidCount hashCount hpc hread hlarge ht => rw [ht]; exact ⟨rfl, rfl, rfl⟩
  | create hash filename fileSize missing hpc ht =>
      rw [ht] at hsame
      exact absurd (Reception.terminated_created s.host filename) hsame
  | more _ _ _ ht | complete _ _ ht | close _ _ ht | count _ _ _ _ ht | answer _ _ _ _ _ _ ht
  | reply _ _ _ _ _ ht | replied _ _ ht | name _ _ _ _ _ ht | done _ ht | store _ _ _ _ _ _ ht =>
      rw [ht] at hsame
      exact absurd rfl hsame

end

namespace Peer

variable {cfg : Config} {scans : List Scan} {disk : Disk} {p q : Peer} {a : Act}
  {up down up' down' up₀ down₀ : Link}

theorem OpenedEmpty.fileMove {dir : Bytes} (h : OpenedEmpty p.host.disk p.download)
    (hmove : FileMove dir p a q) :
    Disk.Keeps p.host.disk q.host.disk ∧ OpenedEmpty q.host.disk q.download := by
  cases hmove with
  | same hhost hdownloads hopened =>
      rw [hhost]
      exact ⟨Disk.Keeps.refl _, by rw [OpenedEmpty, hopened]; exact h⟩
  | create hash filename fileSize missing hpc hhost hdownloads hopened =>
      obtain ⟨hkeep, hopen⟩ := Disk.createFile_spec
        (show p.host.disk.createFile (toPath dir (cString filename)) hash = (_, _) from rfl)
      rw [hhost]
      refine ⟨hkeep, fun hash' filename' path hpath => ?_⟩
      rw [hopened, Option.some.injEq, Prod.mk.injEq, Prod.mk.injEq] at hpath
      exact (hopen path hpath.2.2).2
  | store k hash filename target file missing ha hpc hhost hdownloads hopened =>
      rw [hhost]
      refine ⟨Disk.keeps_store fun path hpath => ?_, by simp [OpenedEmpty, hopened]⟩
      exact h hash filename path (by rw [hpc, hpath]; rfl)

/-- After the update the downloader's steps are those of its receive
loop. -/
theorem reception_of_step {k : Nat}
    (hst : p.step cfg up down (.download k) = some (q, up', down'))
    (hpc : p.download ≠ .update ∧ p.download ≠ .notify) :
    ∃ r, (p.reception down).step p.contains cfg.downloadDir k = some r ∧
      q = { p with download := r.pc, host := r.host, accepted := r.accepted,
                   downloads := r.downloads } := by
  unfold Peer.step at hst
  split at hst
  · cases hst
  · obtain ⟨⟨q', up₁, down₁⟩, hopen, heq⟩ := Option.map_eq_some_iff.mp hst
    obtain ⟨⟨q₁, down₂⟩, hdown, hq₁⟩ := Option.map_eq_some_iff.mp hopen
    have hq : q = q₁ := by
      cases hq₁
      split at heq <;> cases heq <;> rfl
    rw [hq]
    unfold downloadStep at hdown
    split at hdown
    next hupdate => exact absurd hupdate hpc.1
    next hnotify => exact absurd hnotify hpc.2
    next =>
      obtain ⟨r, hr, heq'⟩ := Option.map_eq_some_iff.mp hdown
      cases heq'
      exact ⟨r, hr, rfl⟩

/-- The step that calls `Fatal` does nothing else that lasts. -/
theorem Sound.fatal_frame (h : Sound cfg scans p)
    (hst : p.step cfg up down a = some (q, up', down')) (hdead : q.terminated = true) :
    q.host.disk = p.host.disk ∧ q.accepted = p.accepted ∧ q.downloads = p.downloads := by
  obtain ⟨hlive, -, up₁, down₁, hmove, -⟩ := h.move_of_step hst
  have halive : p.terminated ≠ true := by simp [hlive]
  cases hmove with
  | noUpdate k hpc hclosed hpending => exact ⟨rfl, rfl, rfl⟩
  | emission k r hround hr =>
      refine ⟨?_, rfl, rfl⟩
      show r.host.disk = p.host.disk
      rcases emission_host hr with hhost | ⟨report, _, hhost⟩ <;> (rw [hhost]; rfl)
  | reception k r hpc hr =>
      obtain ⟨r', hr', heq⟩ := reception_of_step hst hpc
      rw [heq] at hdead ⊢
      exact Reception.fatal_frame (s := p.reception down) h.downloadBounds hr' hlive hdead
  | _ => exact absurd hdead halive

/-! ## Both together -/

/-- **What a peer never does**, whatever is at the other end. -/
structure Guarded (scans : List Scan) (disk : Disk) (p : Peer) : Prop where
  listed : (p.uploads.map Prod.fst).Sublist (ExifHasher.firstOfEach [] scans)
  sent : ∀ f ∈ p.uploads, SentFrom p.host.disk f
  kept : Disk.Keeps disk p.host.disk
  asked : p.downloads.map Download.hash <+: p.accepted
  missing : ∀ hash ∈ p.accepted, ∀ scan ∈ scans, scan.exif ≠ some hash

/-- Where a peer that is running stands between the two. -/
structure Guarding (disk : Disk) (p : Peer) : Prop where
  sending : Sending p.pipe.offered.flatten p.host.disk p.upload p.uploads
  before : p.download = .update → p.accepted = []
  taking : Taking p.contains p.download p.accepted p.downloads
  opened : OpenedEmpty p.host.disk p.download
  kept : Disk.Keeps disk p.host.disk

theorem guarding_start (scans : List Scan) (disk : Disk) : Guarding disk (start scans disk) where
  sending := ⟨⟨[], rfl, List.Sublist.refl _⟩, nofun, nofun⟩
  before := fun _ => rfl
  taking := ⟨rfl, nofun⟩
  opened := nofun
  kept := Disk.Keeps.refl _

/-- What an uploader has sent is on the list of its directory. -/
theorem listed_of_sending (hsound : Sound cfg scans p)
    (h : Sending p.pipe.offered.flatten disk p.upload p.uploads) :
    (p.uploads.map Prod.fst).Sublist (ExifHasher.firstOfEach [] scans) := by
  obtain ⟨todo, -, hsub⟩ := h.listed
  have hentries : p.pipe.hasher.entries.Sublist (ExifHasher.firstOfEach [] scans) := by
    rw [← hsound.handOver.rest]
    exact List.sublist_append_left _ _
  exact (((List.sublist_append_left _ _).trans hsub).trans hsound.offered_sublist).trans hentries

theorem Guarding.guarded (h : Guarding disk p) (hsound : Sound cfg scans p) :
    Guarded scans disk p where
  listed := listed_of_sending hsound h.sending
  sent := h.sending.sent
  kept := h.kept
  asked := h.taking.account ▸ List.prefix_append _ _
  missing := by
    intro hash hmem scan hscan hexif
    have hne : p.download ≠ .update := fun heq => by
      rw [h.before heq] at hmem
      exact List.not_mem_nil hmem
    have hnot := h.taking.missing hash hmem
    rw [contains, decide_eq_false_iff_not,
      (hsound.drained (hsound.downloading hne)).hashes, ExifHasher.mem_hashes_firstOfEach] at hnot
    exact hnot ⟨List.not_mem_nil, scan, hscan, hexif⟩

/-- The uploading end of a step. -/
theorem sending_step
    (h : Sending p.pipe.offered.flatten p.host.disk p.upload p.uploads)
    (hmove : UpMove p up a q up') (hkeep : Disk.Keeps p.host.disk q.host.disk) :
    Sending q.pipe.offered.flatten q.host.disk q.upload q.uploads := by
  cases hmove with
  | other hupload huploads hoffered hoffers hreplies =>
      rw [hupload, huploads, hoffered]
      exact h.rest hkeep (Or.inl rfl)
  | noUpdate hpc hclosed hpending hdead hupload huploads hoffered hoffers =>
      rw [hupload, huploads, hoffered]
      exact h.rest hkeep (Or.inl hpc.symm)
  | waited byte hpc hupload huploads hoffered hoffers hpending hclosed =>
      rw [hupload, huploads, hoffered]
      exact h.rest hkeep (Or.inr ⟨rfl, rfl, rfl⟩)
  | idle hpc hupload hopen huploads hoffered hoffers hreplies =>
      rw [huploads, hoffered]
      refine h.rest hkeep (Or.inr ?_)
      obtain ⟨hidle, hround⟩ := hupload
      cases hq : q.upload with
      | lockUpdated | setUpdated | main | closed => exact ⟨rfl, rfl, rfl⟩
      | entry cursor missing =>
          rw [hq] at hround
          exact absurd trivial hround
      | wait | offer | mask | name | openFile | size | read | payload | overrun =>
          rw [hq] at hidle
          exact hidle.elim
  | leave hpc hupload huploads hoffered hoffers hreplies =>
      rw [hupload, huploads, hoffered]
      exact h.rest hkeep (Or.inr ⟨rfl, rfl, rfl⟩)
  | beginRound missing hpc hupload huploads hoffered hoffers hreplies =>
      rw [hupload, huploads, hoffered, List.flatten_append, List.flatten_singleton]
      exact (h.rest hkeep (Or.inl rfl)).beginRound missing
  | emission k r ha hround hr hupload huploads hhost hoffered hoffers hreplies =>
      rw [hupload, huploads, hhost, hoffered]
      exact Sending.emission (s := p.emission up) h hr

/-- The downloading end of a step that does not end the process. -/
theorem Guarding.taking_step (h : Guarding disk p) (hsound : Sound cfg scans p)
    (hst : p.step cfg up down a = some (q, up', down')) (hlive : q.terminated = false) :
    (q.download = .update → q.accepted = []) ∧
      Taking q.contains q.download q.accepted q.downloads := by
  have hmove := (hsound.ends_of_step hst hlive).2
  have htaking := h.taking
  -- what the set of hashes answers is settled before anything is accepted
  have hcontains : ∀ hash ∈ p.accepted, q.contains hash = false := fun hash hmem => by
    have hne : p.download ≠ .update := fun heq => by
      rw [h.before heq] at hmem
      exact List.not_mem_nil hmem
    rw [hsound.contains_step hst hne]
    exact htaking.missing hash hmem
  cases hmove with
  | other hdownload haccepted hdownloads hhost hoffers hreplies =>
      rw [hdownload, haccepted, hdownloads]
      exact ⟨h.before, htaking.account, hcontains⟩
  | endUpdate hpc hdownload haccepted hdownloads hhost hoffers hreplies =>
      rw [hdownload, haccepted, hdownloads]
      exact ⟨nofun, by rw [htaking.account, hpc]; rfl, hcontains⟩
  | notify byte hpc hdownload haccepted hdownloads hhost hoffers hreplies =>
      rw [hdownload, haccepted, hdownloads]
      exact ⟨nofun, by rw [htaking.account, hpc]; rfl, hcontains⟩
  | reception k r ha hpc hr hdownload haccepted hdownloads hhost hoffers hreplies =>
      rw [terminated, hhost] at hlive
      rw [hdownload, haccepted, hdownloads, hsound.contains_step hst hpc.1]
      refine ⟨fun heq => ?_, Taking.reception (s := p.reception down) htaking
        hsound.downloadBounds hr hlive⟩
      have hin := (reception_live hr hlive).2
      rw [heq] at hin
      exact hin.elim

/-- **A step against a stranger.** -/
theorem Guarding.step (h : Guarding disk p) (hsound : Sound cfg scans p)
    (hst : p.step cfg up down a = some (q, up', down')) :
    Guarded scans disk q ∧ (q.terminated = false → Guarding disk q) := by
  obtain ⟨-, -, up₁, down₁, hmove, -⟩ := hsound.move_of_step hst
  cases hdead : q.terminated with
  | false =>
      obtain ⟨hkeep, hopened⟩ := OpenedEmpty.fileMove h.opened (hmove.downMove.fileMove hdead)
      obtain ⟨hbefore, htaking⟩ := h.taking_step hsound hst hdead
      have hq : Guarding disk q :=
        ⟨sending_step h.sending hmove.upMove hkeep, hbefore, htaking, hopened, h.kept.trans hkeep⟩
      exact ⟨hq.guarded (hsound.step hst), fun _ => hq⟩
  | true =>
      obtain ⟨hdisk, haccepted, hdownloads⟩ := hsound.fatal_frame hst hdead
      have hkeep : Disk.Keeps p.host.disk q.host.disk := hdisk ▸ Disk.Keeps.refl _
      have hsending := sending_step h.sending hmove.upMove hkeep
      have hp := h.guarded hsound
      have hlisted := listed_of_sending (hsound.step hst) hsending
      refine ⟨⟨hlisted, hsending.sent, hp.kept.trans hkeep, ?_, ?_⟩, nofun⟩
      · rw [hdownloads, haccepted]
        exact hp.asked
      · rw [haccepted]
        exact hp.missing

/-- **Safe against strangers.** In every state of every run of a peer whose
other side sends whatever it likes: each file that was read for sending is
an image of the peer's own directory, in the order of its list and none
twice, and what is sent for it is what it holds; no file that is not empty
has changed; what was received is what was accepted, in this order, and
nothing that the directory holds was accepted. -/
theorem safe_against_strangers
    (hp : (openSystem cfg).Reachable (opened scans disk up₀ down₀) (p, up, down)) :
    Guarded scans disk p ∧ (p.uploads.map fun f => f.1.hash).Nodup := by
  have h : Sound cfg scans p ∧ Guarded scans disk p ∧ (p.terminated = false → Guarding disk p) := by
    refine hp.invariant (I := fun s => Sound cfg scans s.1 ∧ Guarded scans disk s.1 ∧
      (s.1.terminated = false → Guarding disk s.1)) ?_ ?_
    · rintro ⟨p, up, down⟩ a ⟨q, up', down'⟩ ⟨hsound, hguarded, hguarding⟩ hst
      cases a with
      | own a =>
          have hlive := (hsound.move_of_step hst).1
          obtain ⟨hq, hq'⟩ := (hguarding hlive).step hsound hst
          exact ⟨hsound.step hst, hq, hq'⟩
      | remote up'' down'' =>
          cases hst
          exact ⟨hsound, hguarded, hguarding⟩
    · have hsound := sound_start cfg scans disk
      have hstart := guarding_start scans disk
      exact ⟨hsound, hstart.guarded hsound, fun _ => hstart⟩
  refine ⟨h.2.1, ?_⟩
  have hsub := h.2.1.listed.map Entry.hash
  rw [List.map_map] at hsub
  exact hsub.nodup (ExifHasher.nodup_firstOfEach [] scans)

/-- The directory of `oneImage`. -/
def oneFile : Disk := ⟨[([105], [9, 9])], [], []⟩

/-- An offer of one hash, and the file. -/
def strangeGift : Bytes := 1 :: List.replicate 20 7 ++ [1, 97, 0, 0, 0, 1, 5]

/-- Hashing and the update, then a stranger who asks for everything, and
has an image to give. -/
def giftRun : List OpenAct :=
  List.replicate 4 (.own .run) ++ List.replicate 17 (.own (.download 1)) ++
    [.remote { Link.start with replies := .closedOf [1, 0] }
      { Link.start with offers := .closedOf strangeGift }] ++
    [0, 0, 0, 0, 0, 21, 0, 1, 0, 0, 2, 0, 0, 4, 0, 2].map (fun k => .own (.upload k)) ++
    [0, 20, 0, 0, 1, 0, 0, 1, 0, 4, 0, 0, 1, 0, 1].map fun k => .own (.download k)

theorem safe_against_strangers_giftRun :
    ∃ p up down, (openSystem ⟨.dccp, []⟩).exec (opened oneImage oneFile .start .start) giftRun =
        some (p, up, down) ∧
      (p.uploads.map Prod.snd = [[9, 9]] ∧ p.downloads.map Download.file = [[5]]) ∧
      Guarded oneImage oneFile p := by
  have hrun : ((openSystem ⟨.dccp, []⟩).exec (opened oneImage oneFile .start .start)
      giftRun).map (fun s => (s.1.uploads.map Prod.snd, s.1.downloads.map Download.file)) =
        some ([[9, 9]], [[5]]) := by
    decide +kernel
  obtain ⟨⟨p, up, down⟩, hs, hfiles⟩ := Option.map_eq_some_iff.mp hrun
  rw [Prod.mk.injEq] at hfiles
  exact ⟨p, up, down, hs, hfiles, (safe_against_strangers ⟨_, hs⟩).1⟩

end Peer
end Jpgsync
