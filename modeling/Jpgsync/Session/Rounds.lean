import Jpgsync.Session.Account

/-!
# Session — Rounds

What an uploader writes on its sync connection is one round after another:
an offer, and the files the other side lacks. `Written` says how much of it
is written at every point of the uploader; so the whole stream of an
uploader that has left its loop is determined by what it offered and what
it sent (`stream_of_closed`), whatever became of the two processes since.
-/

namespace Jpgsync

open UploadPc DownloadPc

/-- The hashes of a side: what its `Contains` answers once hashing is done. -/
def Site.holds (S : Site) (hash : ExifHash) : Bool :=
  S.scans.any fun scan => decide (scan.exif = some hash)

/-- One round of an uploader: an offer and the files sent for it. -/
structure Round where
  offer : List Entry
  files : List SentFile

namespace Round

def bytes (r : Round) : Bytes := offerBytes r.offer ++ filesBytes r.files

/-- The offer fits a packet, the sizes of the files fit their bytes. -/
structure WellFormed (r : Round) : Prop where
  count : r.offer.length ≤ syncHashesPerPacket
  sizes : ∀ f ∈ r.files, f.SizeOk

/-- All files that are missing on the other side were sent. -/
structure Complete (holds : ExifHash → Bool) (r : Round) : Prop extends WellFormed r where
  files : r.files.map Prod.fst = missingOf holds r.offer

end Round

/-- The rounds in which these offers were made and these files were sent,
to a side that holds the hashes `holds`. -/
def roundsOf (holds : ExifHash → Bool) : List (List Entry) → List SentFile → List Round
  | [], _ => []
  | missing :: offered, uploads =>
    let n := (missingOf holds missing).length
    ⟨missing, uploads.take n⟩ :: roundsOf holds offered (uploads.drop n)

/-- The bytes of some rounds. -/
def stream (rounds : List Round) : Bytes := rounds.flatMap Round.bytes

@[simp] theorem stream_nil : stream [] = [] := rfl

@[simp] theorem stream_append (rounds rounds' : List Round) :
    stream (rounds ++ rounds') = stream rounds ++ stream rounds' := List.flatMap_append

@[simp] theorem stream_cons (r : Round) (rounds : List Round) :
    stream (r :: rounds) = r.bytes ++ stream rounds := rfl

variable {holds : ExifHash → Bool}

/-- Complete rounds are told apart by their numbers of files. -/
theorem roundsOf_eq {rounds : List Round} (h : ∀ r ∈ rounds, r.Complete holds) :
    roundsOf holds (rounds.map Round.offer) (rounds.flatMap Round.files) = rounds := by
  induction rounds with
  | nil => rfl
  | cons r rounds ih =>
      obtain ⟨hr, hrest⟩ := List.forall_mem_cons.mp h
      have hlen : (missingOf holds r.offer).length = r.files.length := by
        rw [← hr.files, List.length_map]
      rw [List.map_cons, List.flatMap_cons, roundsOf, hlen]
      rw [List.take_left, List.drop_left, ih hrest]

theorem files_of_complete {rounds : List Round} (h : ∀ r ∈ rounds, r.Complete holds) :
    (rounds.flatMap Round.files).map Prod.fst =
      missingOf holds (rounds.map Round.offer).flatten := by
  induction rounds with
  | nil => rfl
  | cons r rounds ih =>
      obtain ⟨hr, hrest⟩ := List.forall_mem_cons.mp h
      rw [List.flatMap_cons, List.map_append, hr.files, ih hrest, List.map_cons,
        List.flatten_cons, missingOf_append]

/-- **How much an uploader has written**: between rounds the rounds so far;
else also the part of the current round that its control implies. -/
inductive Written (holds : ExifHash → Bool) (x : UploadPc) (sent : Bytes)
    (offered : List (List Entry)) (uploads : List SentFile) : Prop
  | between (rounds : List Round) (hx : ¬ x.InRound) (hrounds : ∀ r ∈ rounds, r.Complete holds)
      (hoffered : offered = rounds.map Round.offer)
      (huploads : uploads = rounds.flatMap Round.files) (hsent : sent = stream rounds)
  | asking (rounds : List Round) (hx : asking x ≠ []) (hrounds : ∀ r ∈ rounds, r.Complete holds)
      (hoffered : offered = rounds.map Round.offer ++ [UploadPc.asking x])
      (huploads : uploads = rounds.flatMap Round.files)
      (hsent : sent ++ unsent x = stream rounds ++ offerBytes (UploadPc.asking x))
  | sending (rounds : List Round) (r : Round) (hx : x.InRound) (hask : UploadPc.asking x = [])
      (hrounds : ∀ r ∈ rounds, r.Complete holds) (hr : r.WellFormed)
      (hoffered : offered = rounds.map Round.offer ++ [r.offer])
      (huploads : uploads = rounds.flatMap Round.files ++ r.files)
      (hsent : sent ++ unsent x = stream rounds ++ r.bytes ++ started x)

namespace Written

variable {x : UploadPc} {sent : Bytes} {offered : List (List Entry)} {uploads : List SentFile}

/-- Once its answer is decoded, a round is being sent. -/
theorem sending_of_inRound (h : Written holds x sent offered uploads) (hx : x.InRound)
    (hask : UploadPc.asking x = []) :
    ∃ rounds r, (∀ r ∈ rounds, Round.Complete holds r) ∧ Round.WellFormed r ∧
      offered = rounds.map Round.offer ++ [r.offer] ∧
      uploads = rounds.flatMap Round.files ++ r.files ∧
      sent ++ unsent x = stream rounds ++ r.bytes ++ started x := by
  cases h with
  | between rounds hno => exact absurd hx hno
  | asking rounds hne => exact absurd hask hne
  | sending rounds r _ _ hrounds hr hoffered huploads hsent =>
      exact ⟨rounds, r, hrounds, hr, hoffered, huploads, hsent⟩

/-- A part of a file is written, and the next one begun. -/
theorem next_part (h : Written holds x sent offered uploads) (hx : x.InRound)
    (hask : UploadPc.asking x = []) (hunsent : unsent x = []) {x' : UploadPc} (hx' : x'.InRound)
    (hask' : UploadPc.asking x' = []) (hstarted : started x' = started x ++ unsent x') :
    Written holds x' sent offered uploads := by
  obtain ⟨rounds, r, hrounds, hr, hoffered, huploads, hsent⟩ := h.sending_of_inRound hx hask
  refine .sending rounds r hx' hask' hrounds hr hoffered huploads ?_
  rw [hunsent, List.append_nil] at hsent
  rw [hsent, hstarted, List.append_assoc (stream rounds ++ r.bytes)]

/-- **A step of the sending loop** writes on. -/
theorem emission {k : Nat} {s t : Emission} (hmove : Emission.Move k s t) (hx : Upstream s.pc)
    (hround : s.pc.InRound) (h : Written holds s.pc s.output.sent offered s.uploads) :
    Written holds t.pc t.output.sent offered t.uploads := by
  cases hmove with
  | fail report hbroken ht =>
      rw [ht]
      exact h
  | write hw =>
      rw [hw.uploads]
      cases h with
      | between rounds hno => exact absurd hround hno
      | asking rounds hask hrounds hoffered huploads hsent =>
          exact .asking rounds (by rw [hw.asking]; exact hask) hrounds
            (by rw [hw.asking]; exact hoffered) huploads (by rw [hw.sent, hw.asking]; exact hsent)
      | sending rounds r hin hask hrounds hr hoffered huploads hsent =>
          exact .sending rounds r hw.inRound (hw.asking.trans hask) hrounds hr hoffered huploads
            (by rw [hw.sent, hw.started]; exact hsent)
  | readMask buf buf' missing hpc ht hcons hclosed =>
      rw [ht]
      rw [hpc] at h
      cases h with
      | between rounds hno => exact absurd trivial hno
      | asking rounds hask hrounds hoffered huploads hsent =>
          exact .asking rounds hask hrounds hoffered huploads hsent
      | sending rounds r hin hask =>
          exact absurd hask (hx.offer buf missing (Or.inr hpc))
  | decode buf missing hpc hlen ht =>
      have hcount := hx.count
      have hmissing := hx.offer buf missing (Or.inr hpc)
      rw [ht]
      rw [hpc] at h hcount
      cases h with
      | between rounds hno => exact absurd trivial hno
      | sending rounds r hin hask => exact absurd hask hmissing
      | asking rounds hask hrounds hoffered huploads hsent =>
          refine .sending rounds ⟨missing, []⟩ trivial rfl hrounds ⟨hcount, by simp⟩ hoffered
            (by rw [huploads, List.append_nil]) ?_
          have hsent' : s.output.sent ++ [] = stream rounds ++ offerBytes missing := hsent
          show s.output.sent ++ [] = stream rounds ++ (offerBytes missing ++ []) ++ []
          rw [hsent', List.append_nil, List.append_nil]
  | begin cursor e rest hpc hwants ht =>
      rw [ht]
      rw [hpc] at h
      exact h.next_part trivial rfl rfl trivial rfl rfl
  -- a found entry: nothing is written for it
  | skip cursor e rest hpc hwants ht =>
      rw [ht]
      rw [hpc] at h
      exact h.next_part trivial rfl rfl trivial rfl rfl
  | openFile l contents hpc hopen ht =>
      rw [ht]
      rw [hpc] at h
      exact h.next_part trivial rfl rfl trivial rfl rfl
  | read fileSize l hpc contents hcontents ht =>
      have hsize := hx.size fileSize (by rw [hpc]; rfl)
      have hlen := length_readBuffer contents fileSize k
      rw [ht]
      rw [hpc] at h
      obtain ⟨rounds, r, hrounds, hr, hoffered, huploads, hsent⟩ :=
        h.sending_of_inRound trivial rfl
      -- the file is complete as soon as its contents are written
      refine .sending rounds ⟨r.offer, r.files ++ [(l.entry, readBuffer contents fileSize k)]⟩
        trivial rfl hrounds ⟨hr.count, fun f hf => ?_⟩ hoffered
        (by rw [huploads, List.append_assoc]) ?_
      · rcases List.mem_append.mp hf with hf | hf
        · exact hr.sizes f hf
        · rw [List.mem_singleton.mp hf]
          refine ⟨fun hnil => hsize.1 ?_, by rw [hlen]; exact hsize.2⟩
          rw [← hlen, show readBuffer contents fileSize k = [] from hnil]
          rfl
      · have hsent' : s.output.sent = stream rounds ++ r.bytes ++
            (nameBytes l.entry.path ++ writeFileSize fileSize) := by
          simpa [unsent, started] using hsent
        show s.output.sent ++ readBuffer contents fileSize k = _ ++ []
        rw [hsent']
        simp [Round.bytes, fileBytes, hlen]

/-- The round of an uploader between rounds is over. -/
theorem finish {x' : UploadPc} (h : Written holds x sent offered uploads) (hx : x.Idle)
    (hall : uploads.map Prod.fst = missingOf holds offered.flatten) (hx' : ¬ x'.InRound) :
    Written holds x' sent offered uploads := by
  obtain ⟨_, hun, hst, _, hask, _⟩ := hx.quiet
  cases h with
  | between rounds hno hrounds hoffered huploads hsent =>
      exact .between rounds hx' hrounds hoffered huploads hsent
  | asking rounds hne => exact absurd hask hne
  | sending rounds r hin _ hrounds hr hoffered huploads hsent =>
      have hfiles : r.files.map Prod.fst = missingOf holds r.offer := by
        rw [hoffered, huploads, List.map_append, files_of_complete hrounds, List.flatten_append,
          missingOf_append, List.flatten_singleton] at hall
        exact List.append_cancel_left hall
      rw [hun, hst, List.append_nil, List.append_nil] at hsent
      refine .between (rounds ++ [r]) hx' ?_ (by simp [hoffered]) (by simp [huploads])
        (by simp [hsent])
      intro r' hr'
      rcases List.mem_append.mp hr' with hr' | hr'
      · exact hrounds r' hr'
      · rw [List.mem_singleton.mp hr']
        exact ⟨hr, hfiles⟩

/-- **What a closed uploader has written** is the stream of its rounds. -/
theorem closed (h : Written holds .closed sent offered uploads) :
    sent = stream (roundsOf holds offered uploads) ∧
      ∀ r ∈ roundsOf holds offered uploads, r.Complete holds := by
  cases h with
  | asking rounds hne => exact absurd rfl hne
  | sending rounds r hin => exact hin.elim
  | between rounds hno hrounds hoffered huploads hsent =>
      rw [hoffered, huploads, roundsOf_eq hrounds]
      exact ⟨hsent, hrounds⟩

end Written

namespace Peer

/-- After its update loop a downloader answers for all hashes of its side. -/
theorem Sound.contains_eq {S : Site} {p : Peer} (h : p.Sound S.cfg S.scans)
    (hne : p.download ≠ .update) : p.contains = S.holds := by
  funext hash
  rw [contains, Site.holds, Bool.eq_iff_iff, decide_eq_true_eq,
    (h.drained (h.downloading hne)).hashes, ExifHasher.mem_hashes_firstOfEach]
  simp

end Peer

namespace Session

/-- **What a direction's uploader has written**, in a session that answers
exactly: it stays known when a process has ended. -/
structure Tracked (SX : Site) (X : Peer) (SY : Site) (Y : Peer) (L : Link) : Prop where
  sound : X.Sound SX.cfg SX.scans ∧ Y.Sound SY.cfg SY.scans
  written : Written SY.holds X.upload L.offers.sent X.pipe.offered X.uploads
  aligned : X.terminated = false → Aligned SX X SY Y L

namespace Tracked

variable {SX SY : Site} {X Y X' Y' : Peer} {L M L' M' : Link} {a : Peer.Act}

theorem start (SX SY : Site) : Tracked SX (.start SX.scans SX.disk) SY
    (.start SY.scans SY.disk) .start where
  sound := ⟨Peer.sound_start _ _ _, Peer.sound_start _ _ _⟩
  written := .between [] id (by simp) rfl rfl rfl
  aligned := fun _ => .start SX SY

/-- What a step of the uploading peer writes, before any stream is closed. -/
theorem upMove (h : Tracked SX X SY Y L) (hlive : X.terminated = false)
    (hsound : X'.Sound SX.cfg SX.scans) (hmove : Peer.UpMove X L a X' L') :
    Written SY.holds X'.upload L'.offers.sent X'.pipe.offered X'.uploads := by
  have haligned := h.aligned hlive
  obtain ⟨received, inflight, todo, opening, answered, hA⟩ := haligned.account
  have hwritten := h.written
  cases hmove with
  | other hupload huploads hoffered hoffers hreplies =>
      rw [hupload, hoffers, hoffered, huploads]
      exact hwritten
  | noUpdate hpc hclosed hpending hdead hupload huploads hoffered hoffers =>
      rw [hupload, hoffers, hoffered, huploads, ← hpc]
      exact hwritten
  | waited byte hpc hupload huploads hoffered hoffers hpending hclosed =>
      rw [hupload, hoffers, hoffered, huploads]
      rw [hpc] at hwritten
      cases hwritten with
      | asking rounds hne => exact absurd rfl hne
      | sending rounds r hin => exact hin.elim
      | between rounds hx hrounds ho hu hs => exact .between rounds id hrounds ho hu hs
  -- the head of the main loop: if a round was open, all its files have been written
  | idle hpc hupload hopen huploads hoffered hoffers hreplies =>
      rw [hoffers, hoffered, huploads]
      obtain ⟨htodo, hopening, hy⟩ := hA.flow.idle_done hpc
      have hholds : Y.contains = SY.holds := h.sound.2.contains_eq fun hupd => by
        rw [hupd] at hy
        exact hy
      refine hwritten.finish hpc ?_ hupload.2
      have hsent := hA.sent
      rw [htodo, List.append_nil] at hsent
      rw [hsent, hA.offered, hopening, List.append_nil, hholds]
  | leave hpc hupload huploads hoffered hoffers hreplies =>
      rw [hupload, hoffers, hoffered, huploads, Fifo.sent_close]
      rw [hpc] at hwritten
      cases hwritten with
      | asking rounds hne => exact absurd rfl hne
      | sending rounds r hin => exact hin.elim
      | between rounds hx hrounds ho hu hs => exact .between rounds id hrounds ho hu hs
  | beginRound missing hpc hupload huploads hoffered hoffers hreplies =>
      have hmissing : missing ≠ [] := (hsound.upstream (by
        rw [hupload]
        intro n hn
        cases hn)).offer _ missing (Or.inl hupload)
      rw [hupload, hoffers, hoffered, huploads]
      rw [hpc] at hwritten
      cases hwritten with
      | asking rounds hne => exact absurd rfl hne
      | sending rounds r hin => exact hin.elim
      | between rounds hx hrounds ho hu hs =>
          exact .asking rounds hmissing hrounds (by rw [ho]; rfl) hu (by rw [hs]; rfl)
  | emission k r ha hround hr hupload huploads hhost hoffered hoffers hreplies =>
      rw [hupload, hoffers, hoffered, huploads]
      exact hwritten.emission hr (haligned.sound.1.upstream haligned.announced) hround

theorem up (h : Tracked SX X SY Y L)
    (hfits : ∀ k, a = .upload k → X.upload.SizeFits X.host.disk)
    (hst : X.step SX.cfg L M a = some (X', L', M')) : Tracked SX X' SY Y L' := by
  have hsound := h.sound.1.step hst
  have hlive := (h.sound.1.move_of_step hst).1
  obtain ⟨up₁, down₁, hmove, hends⟩ := h.sound.1.upToEnds_of_step hst
  refine ⟨⟨hsound, h.sound.2⟩, ?_, fun hlive' => (h.aligned hlive).up hfits hst hlive'⟩
  rw [hends.sent]
  exact h.upMove hlive hsound hmove.upMove

theorem down (h : Tracked SX X SY Y L)
    (hanswers : ∀ k, a = .download k → Y.download.AnswersExactly Y.contains)
    (hst : Y.step SY.cfg M L a = some (Y', M', L')) : Tracked SX X SY Y' L' := by
  obtain ⟨up₁, down₁, hmove, hends⟩ := h.sound.2.upToEnds_of_step hst
  refine ⟨⟨h.sound.1, h.sound.2.step hst⟩, ?_, fun hlive =>
    (h.aligned hlive).down hanswers hst⟩
  rw [hends.offers, hmove.downMove.sent]
  exact h.written

end Tracked

/-- **A step that keeps one direction together**: an offer of `side` is
answered exactly, and the size of a file `side` opens for sending fits. -/
def ExactFor (side : Side) (s : Session) : Side × Peer.Act → Prop
  | (mover, .download _) =>
    mover = other side → (s.peer mover).download.AnswersExactly (s.peer mover).contains
  | (mover, .upload _) =>
    mover = side → (s.peer mover).upload.SizeFits (s.peer mover).host.disk
  | (_, .run) | (_, .getWakes) | (_, .uploaderWakes) | (_, .receive _) | (_, .endOfUpdate)
  | (_, .return) => True

instance (side : Side) (s : Session) : DecidablePred (ExactFor side s)
  | (_, .download _) => inferInstanceAs (Decidable (_ → _))
  | (_, .upload _) => inferInstanceAs (Decidable (_ → _))
  | (_, .run) | (_, .getWakes) | (_, .uploaderWakes) | (_, .receive _) | (_, .endOfUpdate)
  | (_, .return) => isTrue trivial

/-- The rounds of the uploader of a side. -/
def rounds (A B : Site) (s : Session) (side : Side) : List Round :=
  roundsOf (site A B (other side)).holds (s.peer side).pipe.offered (s.peer side).uploads

/-- **The whole stream of an uploader** that has left its loop is that of
its rounds, which are complete. -/
theorem stream_of_closed {A B : Site} {s : Session} {side : Side}
    (hs : (system A B).Reaches (ExactFor side) (start A B) s)
    (hdone : (s.peer side).upload = .closed) :
    (s.uplink side).offers.sent = stream (s.rounds A B side) ∧
      ∀ r ∈ s.rounds A B side, r.Complete (site A B (other side)).holds := by
  have htracked : Direction Tracked A B side s := by
    refine hs.invariant (I := Direction Tracked A B side) ?_ ?_
    · rintro s ⟨mover, act⟩ t h hok hst
      refine direction_step (fun X' L' M' hm hp => ?_) (fun Y' L' M' hm hp => ?_) hst
      · exact h.up (fun k hk => by subst hk hm; exact hok rfl) hp
      · exact h.down (fun k hk => by subst hk hm; exact hok rfl) hp
    · cases side with
      | a => exact .start A B
      | b => exact .start B A
  have hwritten := htracked.written
  rw [hdone] at hwritten
  exact hwritten.closed

end Session
end Jpgsync
