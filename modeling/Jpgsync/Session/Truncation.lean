import Jpgsync.Download.Progress
import Jpgsync.Peer.Environment
import Jpgsync.Session.Damage
import Jpgsync.Session.Rounds

/-!
# Session — Truncation

What a downloader makes of a stream that was cut. The end of a session is
the end of the stream between two rounds, so a stream that is cut there
looks complete (`truncation_looks_complete`); but a stream that ends inside
an offer or with files missing is always reported (`truncation_is_reported`):
whatever the other threads and the environment do, the receive loop does
not end normally, and it does end, by `Fatal` or, where the answer or the
next byte meets a connection that is gone, with the process.
-/

namespace Jpgsync

open DownloadPc

/-! ## Reading the rounds -/

/-- **Where the downloader is in a stream of rounds**: what it has consumed
of the current item, what is pending and what is yet to arrive are the
files in flight and the rounds not begun. -/
structure ReadingAt (rounds : List Round) (y : DownloadPc) (offers : Fifo UInt8) (more : Bytes)
    (begun rest : List Round) (inflight : List SentFile) : Prop where
  whole : offers.sent ++ more = stream rounds
  split : rounds = begun ++ rest
  bytes : consumed y ++ (offers.pending ++ more) = filesBytes inflight ++ stream rest
  awaited : awaited y = (inflight.map Prod.fst).map Entry.hash
  sizes : ∀ f ∈ inflight, f.SizeOk

def Reading (rounds : List Round) (y : DownloadPc) (offers : Fifo UInt8) : Prop :=
  ∃ more begun rest inflight, ReadingAt rounds y offers more begun rest inflight

namespace Reading

variable {rounds : List Round} {holds : ExifHash → Bool} {y : DownloadPc} {offers : Fifo UInt8}

/-- **The stream ends for the loop** only between two rounds. -/
theorem ended (h : Reading rounds .count offers) (hpending : offers.pending = []) :
    ∃ n, offers.sent = stream (rounds.take n) := by
  obtain ⟨more, begun, rest, inflight, h⟩ := h
  have hin : inflight = [] := List.map_eq_nil_iff.mp (List.map_eq_nil_iff.mp h.awaited.symm)
  have hmore : more = stream rest := by simpa [consumed, hpending, hin] using h.bytes
  refine ⟨begun.length, ?_⟩
  have hwhole := h.whole
  rw [h.split, stream_append, hmore] at hwhole
  rw [h.split, List.take_left]
  exact List.append_cancel_right hwhole

/-- **A step of the receive loop** reads on, unless the stream is over. -/
theorem reception {dir : Bytes} {k : Nat} {s t : Reception}
    (hmove : Reception.Move holds dir k s t) (hbounds : InBounds s.pc)
    (hok : ∀ r ∈ rounds, r.Complete holds) (hlive : t.host.logger.terminated = false)
    (h : Reading rounds s.pc s.input) :
    Reading rounds t.pc t.input ∧ t.pc ≠ .closed ∨
      s.pc = .count ∧ s.input.closed = true ∧ s.input.pending = [] := by
  obtain ⟨more, begun, rest, inflight, h⟩ := h
  cases hmove with
  | close hpc hclosed hpending ht => exact Or.inr ⟨hpc, hclosed, hpending⟩
  | fail report hbroken ht =>
      rw [ht] at hlive
      cases hlive
  | read hr =>
      refine Or.inl ⟨⟨more, begun, rest, inflight, ?_⟩, hr.notClosed⟩
      exact ⟨by rw [hr.sent]; exact h.whole, h.split,
        by rw [← List.append_assoc, hr.conserved, List.append_assoc]; exact h.bytes,
        hr.awaited.trans h.awaited, h.sizes⟩
  | reply rest' rest'' missing hpc hrest ht =>
      rw [hpc] at h
      rw [ht]
      exact Or.inl ⟨⟨more, begun, rest, inflight, h.whole, h.split, h.bytes, h.awaited, h.sizes⟩,
        by simp⟩
  | answer hashCount buf a hpc ha ht =>
      rw [hpc] at h hbounds
      have hin : inflight = [] := List.map_eq_nil_iff.mp (List.map_eq_nil_iff.mp h.awaited.symm)
      have hbytes := h.bytes
      rw [hin] at hbytes
      cases rest with
      | nil => cases hbytes
      | cons r rest =>
          -- the offer that was read is the one of the next round
          have hr : r.Complete holds := hok r (by rw [h.split]; simp)
          rw [stream_cons, Round.bytes, List.append_assoc] at hbytes
          obtain ⟨hcount, hbuf, htail⟩ := answer_eq_offer hbounds hr.count hbytes
          obtain ⟨a', ha', _, hmiss, _⟩ := @answerOffer_spec holds sizeofFoundBitmask
            (r.offer.map Entry.hash) (by
              have hroom := foundBitmaskSize_room syncHashesPerPacket
              rw [List.length_map]
              exact Nat.le_trans hr.count hroom)
          rw [← hbuf, ha, Option.some.injEq] at ha'
          have hawait : a.missingHashes = (r.files.map Prod.fst).map Entry.hash := by
            rw [ha', hmiss, hr.files, missingOf, List.filter_map]
            rfl
          rw [ht]
          refine Or.inl ⟨⟨more, begun ++ [r], rest, r.files, h.whole, ?_, htail, hawait,
            hr.sizes⟩, by simp⟩
          rw [h.split, List.append_assoc]
          rfl
  -- the name and size of the file are consumed, its bytes are still to come
  | create hash filename fileSize missing hpc ht =>
      rw [hpc] at h
      rw [ht]
      refine Or.inl ⟨⟨more, begun, rest, inflight, h.whole, h.split, ?_, h.awaited, h.sizes⟩,
        by simp [Reception.create]⟩
      simpa [consumed, Reception.create] using h.bytes
  | store hash filename target file missing hpc ht =>
      rw [hpc] at h hbounds
      cases inflight with
      | nil => cases h.awaited
      | cons f fs =>
          have hbytes := h.bytes
          rw [filesBytes_cons, List.append_assoc] at hbytes
          obtain ⟨_, _, htail⟩ := store_eq_file hbounds (h.sizes f List.mem_cons_self).2 hbytes
          rw [ht]
          exact Or.inl ⟨⟨more, begun, rest, fs, h.whole, h.split, htail,
            (List.cons.inj h.awaited).2, fun g hg => h.sizes g (List.mem_cons_of_mem f hg)⟩,
            by simp⟩

/-- A step that neither reads nor asks for files. -/
theorem goto {y' : DownloadPc} (h : Reading rounds y offers) (hcons : consumed y' = consumed y)
    (hawait : DownloadPc.awaited y' = DownloadPc.awaited y) : Reading rounds y' offers := by
  obtain ⟨more, begun, rest, inflight, h⟩ := h
  exact ⟨more, begun, rest, inflight, h.whole, h.split, by rw [hcons]; exact h.bytes,
    hawait.trans h.awaited, h.sizes⟩

/-- More of the stream arrives. -/
theorem arrive {offers' : Fifo UInt8} (h : Reading rounds y offers)
    (htaken : offers'.taken = offers.taken)
    (hwhole : offers'.sent <+: stream rounds) : Reading rounds y offers' := by
  obtain ⟨more, begun, rest, inflight, h⟩ := h
  obtain ⟨more', hmore'⟩ := hwhole
  have hunread : ∀ {s : Fifo UInt8} {tail : Bytes}, s.sent ++ tail = stream rounds →
      s.pending ++ tail = (stream rounds).drop s.taken := fun {s tail} hs => by
    rw [← hs, List.drop_append_of_le_length s.taken_le]
    rfl
  refine ⟨more', begun, rest, inflight, hmore', h.split, ?_, h.awaited, h.sizes⟩
  rw [hunread hmore', htaken, ← hunread h.whole]
  exact h.bytes

theorem start (rounds : List Round) : Reading rounds .update .empty :=
  ⟨stream rounds, [], rounds, [], rfl, rfl, rfl, rfl, by simp⟩

end Reading

/-! ## A peer on a stream that is cut -/

namespace Peer

/-- The environment delivers `P` on the connection of the downloader, in
pieces of any size, and closes it then. All else is left to it. -/
def Delivers (P : Bytes) : Peer × Link × Link → OpenAct → Prop
  | _, .own _ => True
  | (_, _, down), .remote _ down' =>
    down'.offers.taken = down.offers.taken ∧ down.offers.sent <+: down'.offers.sent ∧
      down'.offers.sent <+: P ∧ (down'.offers.closed = true → down'.offers.sent = P)

instance (P : Bytes) (s : Peer × Link × Link) : DecidablePred (Delivers P s)
  | .own _ => isTrue trivial
  | .remote _ _ => inferInstanceAs (Decidable (_ ∧ _ ∧ _ ∧ (_ → _)))

/-- What holds of a peer to which a part `P` of the rounds is delivered. -/
structure Delivered (S : Site) (rounds : List Round) (P : Bytes) (p : Peer) (down : Link) :
    Prop where
  sound : p.Sound S.cfg S.scans
  returned : p.ReturnedClosed
  reported : p.terminated = true → p.host.logger.exitStatus ≠ 0
  arrived : down.offers.sent <+: P
  ended : p.terminated = false → down.offers.closed = true → down.offers.sent = P
  reading : p.terminated = false → p.download ≠ .closed ∧ Reading rounds p.download down.offers

namespace Delivered

variable {S : Site} {rounds : List Round} {P : Bytes} {p q : Peer} {up down up' down' : Link}
  {a : Act}

theorem start (S : Site) (rounds : List Round) (P : Bytes) (disk : Disk) :
    Delivered S rounds P (.start S.scans disk) .start where
  sound := sound_start _ _ _
  returned := fun h => by cases h
  reported := fun h => by cases h
  arrived := List.nil_prefix
  ended := fun _ h => by cases h
  reading := fun _ => ⟨by simp [Peer.start], Reading.start rounds⟩

/-- **A step of one of the peer's threads.** -/
theorem own (h : Delivered S rounds P p down) (hok : ∀ r ∈ rounds, r.Complete S.holds)
    (hcut : ∀ n, P ≠ stream (rounds.take n))
    (hst : p.step S.cfg up down a = some (q, up', down')) : Delivered S rounds P q down' := by
  have hrun := (h.sound.move_of_step hst).1
  obtain ⟨up₁, down₁, hmove, hends⟩ := h.sound.upToEnds_of_step hst
  have hsent : down'.offers.sent = down.offers.sent := by rw [hends.offers, hmove.downMove.sent]
  obtain ⟨hne, hreading⟩ := h.reading hrun
  refine ⟨h.sound.step hst, h.sound.returnedClosed_step hst, h.sound.exitStatus_of_step hst,
    by rw [hsent]; exact h.arrived, fun hlive => ?_, fun hlive => ?_⟩
  · obtain ⟨_, hdown⟩ := h.sound.ends_of_step hst hlive
    rw [(hdown.live hlive).1, hsent]
    exact h.ended hrun
  · obtain ⟨_, hdown⟩ := h.sound.ends_of_step hst hlive
    cases hdown with
    | other hdownload haccepted hdownloads hhost hoffers hreplies =>
        rw [hdownload, hoffers]
        exact ⟨hne, hreading⟩
    | endUpdate hpc hdownload haccepted hdownloads hhost hoffers hreplies =>
        rw [hpc] at hreading
        rw [hdownload, hoffers]
        exact ⟨by simp, hreading.goto rfl rfl⟩
    | notify byte hpc hdownload haccepted hdownloads hhost hoffers hreplies =>
        rw [hpc] at hreading
        rw [hdownload, hoffers]
        exact ⟨by simp, hreading.goto rfl rfl⟩
    | reception k r ha hpc hr hdownload haccepted hdownloads hhost hoffers hreplies =>
        rw [h.sound.contains_eq hpc.1] at hr
        rw [terminated, hhost] at hlive
        rw [hdownload, hoffers]
        rcases Reading.reception hr h.sound.downloadBounds hok hlive hreading with
          ⟨hread, hopen⟩ | ⟨hcount, hclosed, hpending⟩
        · exact ⟨hopen, hread⟩
        · -- at the end of the stream `P` would be some first rounds
          rw [show p.download = .count from hcount] at hreading
          obtain ⟨n, hn⟩ := hreading.ended hpending
          rw [h.ended hrun hclosed] at hn
          exact absurd hn (hcut n)

theorem remote (h : Delivered S rounds P p down) (hP : P <+: stream rounds)
    (hok : Delivers P (p, up, down) (.remote up' down')) : Delivered S rounds P p down' := by
  obtain ⟨htaken, _, harrived, hended⟩ := hok
  exact ⟨h.sound, h.returned, h.reported, harrived, fun _ => hended, fun hlive =>
    ⟨(h.reading hlive).1, (h.reading hlive).2.arrive htaken (harrived.trans hP)⟩⟩

/-- The end of the process closes nothing that it reads. -/
theorem hangUp (h : Delivered S rounds P p down) :
    Delivered S rounds P p { down with replies := down.replies.close, updatesClosed := true } :=
  ⟨h.sound, h.returned, h.reported, h.arrived, h.ended, h.reading⟩

/-- Whatever the threads of the peer and the environment do. -/
theorem step (h : Delivered S rounds P p down) (hok : ∀ r ∈ rounds, r.Complete S.holds)
    (hP : P <+: stream rounds) (hcut : ∀ n, P ≠ stream (rounds.take n)) {a : OpenAct}
    (ha : Delivers P (p, up, down) a)
    (hst : (openSystem S.cfg).step (p, up, down) a = some (q, up', down')) :
    Delivered S rounds P q down' := by
  cases a with
  | own a => exact h.own hok hcut hst
  | remote up'' down'' =>
      cases hst
      exact h.remote hP ha

end Delivered

/-! ## The loop comes to its end -/

/-- The downloader's steps. -/
def isDownload : MortalAct OpenAct Unit → Bool
  | .act (.own (.download _)) => true
  | _ => false

/-- In its receive loop the downloader does what the loop does. -/
theorem downloadStep_inLoop {cfg : Config} {p : Peer} {down : Link} (k : Nat)
    (h : InLoop p.download) :
    p.downloadStep cfg k down =
      ((p.reception down).step p.contains cfg.downloadDir k).map fun r =>
        ({ p with download := r.pc, host := r.host, accepted := r.accepted,
                  downloads := r.downloads },
          { down with offers := r.input, replies := r.output }) := by
  unfold downloadStep
  cases hpc : p.download <;> first | rfl | (rw [hpc] at h; exact h.elim)

theorem reception_of_download {cfg : Config} {p q : Peer} {up down up' down' : Link} {k : Nat}
    (hin : InLoop p.download) (hst : p.step cfg up down (.download k) = some (q, up', down'))
    (hlive : q.terminated = false) :
    ∃ r, (p.reception down).step p.contains cfg.downloadDir k = some r ∧ q.download = r.pc ∧
      q.host = r.host ∧ down'.offers = r.input := by
  unfold Peer.step at hst
  split at hst
  · cases hst
  · obtain ⟨o, ho, heq⟩ := Option.map_eq_some_iff.mp hst
    obtain ⟨d, hd, rfl⟩ := Option.map_eq_some_iff.mp ho
    rw [downloadStep_inLoop k hin] at hd
    obtain ⟨r, hr, rfl⟩ := Option.map_eq_some_iff.mp hd
    split at heq
    next hdead =>
      cases heq
      exact absurd hdead (by simp [hlive])
    next =>
      cases heq
      exact ⟨r, hr, rfl, rfl, rfl⟩

/-- **The downloader is never stuck** in its loop once its stream is closed. -/
theorem Sound.download_enabled {cfg : Config} {scans : List Scan} {p : Peer} {up down : Link}
    (h : p.Sound cfg scans) (hrun : p.terminated = false ∧ p.returned = false)
    (hin : InLoop p.download) (hopen : p.download ≠ .closed)
    (hclosed : down.offers.closed = true) : (p.step cfg up down (.download 1)).isSome := by
  have hstep := @Reception.step_enabled p.contains cfg.downloadDir (p.reception down)
    h.downloadBounds hin hopen (Or.inl hclosed)
  rw [Peer.step, if_neg (by simp [hrun]), Option.isSome_map, Peer.stepOpen, Option.isSome_map,
    downloadStep_inLoop 1 hin, Option.isSome_map]
  exact hstep

/-- The steps the downloader has left, at most, of a stream of `total`
bytes. -/
def workLeft (total : Nat) (p : Peer) (down : Link) : Nat :=
  if p.terminated then 0
  else (p.download.work (down.offers.pending.length + (total - down.offers.sent.length))) + 1

theorem workLeft_dead {p : Peer} (total : Nat) (down : Link) (h : p.terminated = true) :
    p.workLeft total down = 0 := if_pos h

theorem workLeft_live {p : Peer} (total : Nat) (down : Link) (h : p.terminated = false) :
    p.workLeft total down =
      p.download.work (down.offers.pending.length + (total - down.offers.sent.length)) + 1 :=
  if_neg (by simp [h])

variable {S : Site} {p q : Peer} {up down up' down' : Link} {total : Nat}

/-- **A step of the downloader** leaves less to do. -/
theorem workLeft_download {k : Nat} (h : p.Sound S.cfg S.scans) (hin : InLoop p.download)
    (hst : p.step S.cfg up down (.download k) = some (q, up', down')) :
    q.workLeft total down' < p.workLeft total down := by
  obtain ⟨hrun, _⟩ := h.move_of_step hst
  rw [workLeft_live total down hrun]
  cases hlive : q.terminated with
  | true =>
      rw [workLeft_dead total down' hlive]
      exact Nat.succ_pos _
  | false =>
      obtain ⟨r, hr, hpc, hhost, hoffers⟩ := reception_of_download hin hst hlive
      have hsent := reception_sent (Reception.move_of_step (s := p.reception down)
        h.downloadBounds hr)
      rw [workLeft_live total down' hlive, hpc, hoffers, hsent]
      rcases Reception.work_step (s := p.reception down) h.downloadBounds hr
        (total - down.offers.sent.length) with hdead | hless
      · rw [terminated, hhost, hdead] at hlive
        cases hlive
      · exact Nat.succ_lt_succ hless

/-- The other threads leave the downloader its work. -/
theorem workLeft_other {a : Act} (h : p.Sound S.cfg S.scans) (hin : InLoop p.download)
    (ha : ∀ k, a ≠ .download k) (hst : p.step S.cfg up down a = some (q, up', down')) :
    q.workLeft total down' ≤ p.workLeft total down := by
  obtain ⟨hrun, _⟩ := h.move_of_step hst
  cases hlive : q.terminated with
  | true =>
      rw [workLeft_dead total down' hlive]
      exact Nat.zero_le _
  | false =>
      obtain ⟨_, hdown⟩ := h.ends_of_step hst hlive
      rw [workLeft_live total down hrun, workLeft_live total down' hlive]
      cases hdown with
      | other hdownload haccepted hdownloads hhost hoffers hreplies =>
          rw [hdownload, hoffers]
      | endUpdate hpc => rw [hpc] at hin; exact hin.elim
      | notify byte hpc => rw [hpc] at hin; exact hin.elim
      | reception k r hdown => exact absurd hdown (ha k)

/-- What arrives was counted before. -/
theorem workLeft_remote {P : Bytes}
    (hok : Delivers P (p, up, down) (.remote up' down')) :
    p.workLeft P.length down' = p.workLeft P.length down := by
  obtain ⟨htaken, hsent, harrived, _⟩ := hok
  have hle := hsent.length_le
  have hle' := harrived.length_le
  have htk := down.offers.taken_le
  have hunread : down'.offers.pending.length + (P.length - down'.offers.sent.length) =
      down.offers.pending.length + (P.length - down.offers.sent.length) := by
    rw [Fifo.length_pending, Fifo.length_pending, htaken]
    omega
  rw [workLeft, workLeft, hunread]

/-- **Nothing but steps of the downloader** is needed for its work, and each
of them does some of it. -/
theorem Delivered.uses_up {rounds : List Round} {P : Bytes} {a : OpenAct}
    (h : Delivered S rounds P p down) (hin : p.terminated = false → InLoop p.download)
    (ha : Delivers P (p, up, down) a)
    (hst : (openSystem S.cfg).step (p, up, down) a = some (q, up', down')) :
    (q.terminated = false → InLoop q.download) ∧
      q.workLeft P.length down' ≤ p.workLeft P.length down ∧
      (isDownload (.act a) = true → q.workLeft P.length down' < p.workLeft P.length down) := by
  cases a with
  | remote up'' down'' =>
      have hleft := workLeft_remote ha
      cases hst
      exact ⟨hin, Nat.le_of_eq hleft, fun h => by cases h⟩
  | own a =>
      have hrun := (h.sound.move_of_step hst).1
      refine ⟨fun hlive => ((h.sound.ends_of_step hst hlive).2.live hlive).2 (hin hrun), ?_, ?_⟩
      · by_cases hd : ∃ k, a = .download k
        · obtain ⟨k, rfl⟩ := hd
          exact Nat.le_of_lt (workLeft_download h.sound (hin hrun) hst)
        · exact workLeft_other h.sound (hin hrun) (fun k hk => hd ⟨k, hk⟩) hst
      · intro hd
        cases a with
        | download k => exact workLeft_download h.sound (hin hrun) hst
        | _ => cases hd

end Peer

namespace Session

/-! ## Truncated sessions -/

/-- **What is promised of a downloader** to which `P` is delivered. -/
structure Reports (S : Site) (P : Bytes) (p : Peer) (up down : Link) (killed : Unit → Bool) :
    Prop where
  notDone : ¬ (p.download = .closed ∧ p.host.logger.exitStatus = 0)
  notReturned : p.returned = false
  reported : p.terminated = true → p.host.logger.exitStatus ≠ 0
  /-- Once all of `P` is there the loop is never stuck before it calls `Fatal`
  or a call in it fails. -/
  goesOn : InLoop p.download → down.offers.closed = true → p.terminated = false →
    killed () = false →
      ((Peer.process S.cfg).mortal.step ⟨(p, up, down), killed⟩
        (.act (.own (.download 1)))).isSome
  /-- It makes finitely many steps. -/
  ends : InLoop p.download → ∃ n, ∀ as t,
    (Peer.process S.cfg).mortal.exec ⟨(p, up, down), killed⟩ as = some t →
      (Peer.process S.cfg).mortal.AllSteps (Mortal.promised (Peer.Delivers P))
          ⟨(p, up, down), killed⟩ as →
        as.countP Peer.isDownload ≤ n

variable {S A B : Site} {P : Bytes} {p : Peer} {up down : Link} {killed : Unit → Bool}
  {rounds : List Round}

theorem reports_of_delivered (h : Peer.Delivered S rounds P p down)
    (hok : ∀ r ∈ rounds, r.Complete S.holds) (hP : P <+: stream rounds)
    (hcut : ∀ n, P ≠ stream (rounds.take n)) : Reports S P p up down killed where
  notDone := fun ⟨hclosed, hexit⟩ => by
    cases hlive : p.terminated with
    | true => exact h.reported hlive hexit
    | false => exact (h.reading hlive).1 hclosed
  notReturned := by
    by_contra hret
    obtain ⟨_, hclosed, hlive⟩ := h.returned (by simpa using hret)
    exact (h.reading hlive).1 hclosed
  reported := h.reported
  goesOn := fun hin hclosed hlive hkilled => by
    refine ProcessSystem.step_isSome rfl hkilled
      (h.sound.download_enabled ⟨hlive, ?_⟩ hin (h.reading hlive).1 hclosed)
    by_contra hret
    exact (h.reading hlive).1 (h.returned (by simpa using hret)).2.1
  ends := fun hin => by
    -- every step of the downloader lowers `workLeft` and no other step raises it
    refine ⟨p.workLeft P.length down, fun as t hrun hall => ?_⟩
    refine @StepSystem.exec_countP_le _ _ _ (Mortal.promised (Peer.Delivers P))
      (fun s => Peer.Delivered S rounds P s.state.1 s.state.2.2 ∧
        (s.state.1.terminated = false → InLoop s.state.1.download))
      (fun s => s.state.1.workLeft P.length s.state.2.2) _ ?_ _ t as ⟨h, fun _ => hin⟩ hall hrun
    rintro ⟨⟨p, up, down⟩, killed⟩ (a | i) ⟨⟨q, up', down'⟩, killed'⟩ ⟨hp, hin⟩ ha hst
    · obtain ⟨-, hst, -⟩ := ProcessSystem.step_act.mp hst
      obtain ⟨hin', hless⟩ := hp.uses_up hin ha hst
      exact ⟨⟨hp.step hok hP hcut ha hst, hin'⟩, hless⟩
    · cases hst
      exact ⟨⟨hp.hangUp, hin⟩, Nat.le_refl _, fun h => by cases h⟩

/-- **A stream that ends inside a round is reported.** Let the uploader of
one side have left its loop, in a session that answers its offers exactly,
and let part of what it wrote, but not just some first rounds, be delivered
to a peer of the other side, which a call that fails may end at any moment.
Then this peer's receive loop does not end normally; it ends by `Fatal`, or
with the process. -/
theorem truncation_is_reported {s : Session} {side : Side} {disk : Disk}
    (hs : (system A B).Reaches (ExactFor side) (start A B) s)
    (hdone : (s.peer side).upload = .closed) (hP : P <+: (s.uplink side).offers.sent)
    (hcut : ∀ n, P ≠ stream ((s.rounds A B side).take n))
    (hrun : (Peer.process (site A B (other side)).cfg).mortal.Reaches
      (Mortal.promised (Peer.Delivers P))
      (.alive (Peer.opened (site A B (other side)).scans disk .start .start))
      ⟨(p, up, down), killed⟩) :
    Reports (site A B (other side)) P p up down killed := by
  obtain ⟨hsent, hok⟩ := stream_of_closed hs hdone
  rw [hsent] at hP
  refine reports_of_delivered (ProcessSystem.mortal_invariant
    (I := fun s => Peer.Delivered (site A B (other side)) _ P s.state.1 s.state.2.2) ?_
    (fun _ _ hp => hp.hangUp) (Peer.Delivered.start _ _ P disk) hrun) hok hP hcut
  rintro ⟨⟨p, up, down⟩, killed⟩ a ⟨q, up', down'⟩ hp ha - hst
  exact hp.step hok hP hcut ha hst

/-! ## The small session, cut -/

/-- A downloader without images of its own hashes, sends its update, is
given `bytes` to read, and makes the calls `ks`. -/
def cutRun (bytes : Bytes) (ks : List Nat) : List Peer.OpenAct :=
  List.replicate 3 (.own .run) ++ List.replicate 9 (.own (.download 0)) ++
    [.remote .start { Link.start with offers := .closedOf bytes }] ++
    ks.map fun k => .own (.download k)

/-- The first byte of the file that follows the offer. -/
def cutStream : Bytes := 1 :: 0 :: 0 :: 0 :: 1 :: List.replicate 16 0 ++ [1]

/-- What an uploader has done. -/
structure Sending where
  upload : UploadPc
  sent : Bytes
  offered : List (List Entry)
  uploads : List SentFile
deriving DecidableEq

def sending (s : Session) : Sending :=
  ⟨s.b.upload, s.ba.offers.sent, s.b.pipe.offered, s.b.uploads⟩

theorem transferRun_sends :
    ((system emptySite imageSite).exec (start emptySite imageSite) (transferRun 3)).map sending =
      some ⟨.closed, cutStream ++ [120, 0, 0, 0, 3, 1, 2, 3],
        [[⟨⟨1, 0, 0, 0, 0⟩, [66, slash, 120]⟩]],
        [(⟨⟨1, 0, 0, 0, 0⟩, [66, slash, 120]⟩, [1, 2, 3])]⟩ := by
  decide +kernel

theorem cutRun_ends : ((Peer.openSystem emptySite.cfg).exec
    (Peer.opened emptySite.scans emptySite.disk .start .start) (cutRun [] [0])).map
      (fun s => (s.1.download, s.1.host.logger)) = some (.closed, .start) := by
  decide +kernel

/-- **A truncated stream can look complete**: nothing of the offer arrives,
and the loop ends as if there had been none. -/
theorem truncation_looks_complete :
    ¬ ∀ (A B : Site) (s : Session) (side : Side) (P : Bytes) (disk : Disk) (p : Peer)
        (up down : Link), (system A B).Reachable (start A B) s →
        (s.peer side).upload = .closed → (s.peer side).pipe.offered ≠ [] →
        P <+: (s.uplink side).offers.sent → P ≠ (s.uplink side).offers.sent →
        (Peer.openSystem (site A B (other side)).cfg).Reaches (Peer.Delivers P)
          (Peer.opened (site A B (other side)).scans disk .start .start) (p, up, down) →
        ¬ (p.download = .closed ∧ p.host.logger.exitStatus = 0) := by
  intro h
  obtain ⟨s, hs, hsends⟩ := Option.map_eq_some_iff.mp transferRun_sends
  simp only [sending, Sending.mk.injEq] at hsends
  obtain ⟨hclosed, hsent, hoffered, _⟩ := hsends
  obtain ⟨⟨p, up, down⟩, hrun, hends⟩ := Option.map_eq_some_iff.mp cutRun_ends
  rw [Prod.mk.injEq] at hends
  refine h emptySite imageSite s .b [] emptySite.disk p up down ⟨_, hs⟩ hclosed ?_ List.nil_prefix
    ?_ ⟨_, hrun, by decide +kernel⟩ ⟨hends.1, by rw [hends.2]; rfl⟩
  · rw [show (s.peer .b).pipe.offered = _ from hoffered]
    exact List.cons_ne_nil _ _
  · rw [show (s.uplink .b).offers.sent = _ from hsent]
    exact (List.cons_ne_nil _ _).symm

/-- The file is missing, and `Fatal` is called; or the answer cannot be
written. -/
theorem truncation_is_reported_cutStream :
    (∃ p up down killed, (Peer.process emptySite.cfg).mortal.exec
        (.alive (Peer.opened emptySite.scans emptySite.disk .start .start))
        ((cutRun cutStream [0, 20, 0, 0, 1, 0, 0, 1]).map .act) = some ⟨(p, up, down), killed⟩ ∧
      p.terminated = true ∧ Reports emptySite cutStream p up down killed) ∧
    ∃ p up down killed, (Peer.process emptySite.cfg).mortal.exec
        (.alive (Peer.opened emptySite.scans emptySite.disk .start .start))
        ((cutRun cutStream [0, 20, 0]).map .act ++ [.kill ()]) = some ⟨(p, up, down), killed⟩ ∧
      killed () = true ∧ Reports emptySite cutStream p up down killed := by
  obtain ⟨s, hs, hsends⟩ := Option.map_eq_some_iff.mp transferRun_sends
  simp only [sending, Sending.mk.injEq] at hsends
  obtain ⟨hclosed, hsent, hoffered, huploads⟩ := hsends
  have hP : cutStream <+: (s.uplink .b).offers.sent := by
    rw [show (s.uplink .b).offers.sent = _ from hsent]
    exact List.prefix_append _ _
  -- the bytes of no rounds are too few, those of one are too many
  have hcut : ∀ n, cutStream ≠ stream ((s.rounds emptySite imageSite .b).take n) := by
    have hrounds : s.rounds emptySite imageSite .b =
        [⟨[⟨⟨1, 0, 0, 0, 0⟩, [66, slash, 120]⟩],
          [(⟨⟨1, 0, 0, 0, 0⟩, [66, slash, 120]⟩, [1, 2, 3])]⟩] := by
      rw [Session.rounds, show (s.peer .b).pipe.offered = _ from hoffered,
        show (s.peer .b).uploads = _ from huploads]
      rfl
    intro n
    rw [hrounds]
    cases n with
    | zero => decide
    | succ n =>
        rw [List.take_succ_cons, List.take_nil]
        decide
  have hfatal : ((Peer.process emptySite.cfg).mortal.exec
      (.alive (Peer.opened emptySite.scans emptySite.disk .start .start))
      ((cutRun cutStream [0, 20, 0, 0, 1, 0, 0, 1]).map .act)).map
        (fun t => t.state.1.terminated) = some true := by
    decide +kernel
  have hkill : ((Peer.process emptySite.cfg).mortal.exec
      (.alive (Peer.opened emptySite.scans emptySite.disk .start .start))
      ((cutRun cutStream [0, 20, 0]).map .act ++ [.kill ()])).map
        (fun t => t.killed ()) = some true := by
    decide +kernel
  obtain ⟨⟨⟨p, up, down⟩, killed⟩, hrun, hdead⟩ := Option.map_eq_some_iff.mp hfatal
  obtain ⟨⟨⟨q, up', down'⟩, killed'⟩, hrun', hdead'⟩ := Option.map_eq_some_iff.mp hkill
  have hsmall : (system emptySite imageSite).Reaches (ExactFor .b) (start emptySite imageSite) s :=
    ⟨_, hs, by decide +kernel⟩
  exact ⟨⟨p, up, down, killed, hrun, hdead, truncation_is_reported hsmall hclosed hP hcut
      ⟨_, hrun, by decide +kernel⟩⟩,
    q, up', down', killed', hrun', hdead', truncation_is_reported hsmall hclosed hP hcut
      ⟨_, hrun', by decide +kernel⟩⟩

end Session
end Jpgsync
